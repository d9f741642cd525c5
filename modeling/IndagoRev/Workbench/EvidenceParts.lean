import IndagoRev.Workbench.EvidencePages

/-!
# Parts of a value

A page of a string has a part of its text, and a page of a collection describes some of its
children.  Both begin at the offset, leave nothing out before they end, and end after it.
-/

namespace Indago

open StdText JsonValues Transactions JsonPointers List

variable {p q : EvidencePage} {t : Text}

variable {store : EvidenceStore} {req : EvidenceRequest} {keyed : Bool}

/-- An item is the descriptor of its child, which may have lost its value. -/
def Described (store : EvidenceStore) (req : EvidenceRequest) (keyed : Bool)
    (c : (Text × Json) × Nat) (item : PageItem) : Prop :=
  item = describe store req keyed c.2 c.1.1 c.1.2 ∨
    item = { describe store req keyed c.2 c.1.1 c.1.2 with value := none, valueOmitted := some true }

mutual

theorem eq_of_sameJson : ∀ a b : Json, sameJson a b = true → a = b
  | .null, b, h => by cases b <;> first | rfl | cases h
  | .bool x, b, h => by
    cases b <;> first | cases h | exact congrArg Json.bool (beq_iff_eq.mp h)
  | .int x, b, h => by
    cases b <;> first | cases h | exact congrArg Json.int (beq_iff_eq.mp h)
  | .real x, b, h => by
    cases b <;> first | cases h | exact congrArg Json.real (beq_iff_eq.mp h)
  | .str x, b, h => by
    cases b <;> first | cases h | exact congrArg Json.str (beq_iff_eq.mp h)
  | .arr x, b, h => by
    cases b <;> first | cases h | exact congrArg Json.arr (eq_of_sameItems x _ h)
  | .obj x, b, h => by
    cases b <;> first | cases h | exact congrArg Json.obj (eq_of_sameFields x _ h)

theorem eq_of_sameItems : ∀ a b : List Json, sameItems a b = true → a = b
  | [], b, h => by cases b <;> first | rfl | cases h
  | x :: xs, [], h => by cases h
  | x :: xs, y :: ys, h => by
    rw [sameItems, Bool.and_eq_true] at h
    rw [eq_of_sameJson x y h.1, eq_of_sameItems xs ys h.2]

theorem eq_of_sameFields : ∀ a b : List (Text × Json), sameFields a b = true → a = b
  | [], b, h => by cases b <;> first | rfl | cases h
  | x :: xs, [], h => by cases h
  | (k, x) :: xs, (l, y) :: ys, h => by
    rw [sameFields, Bool.and_eq_true, Bool.and_eq_true, beq_iff_eq] at h
    rw [h.1.1, eq_of_sameJson x y h.1.2, eq_of_sameFields xs ys h.2]

end

theorem child_entry {value : Json} (hvalue : KeysDistinct value) {i : Nat} {key : Text} {v : Json}
    (h : (childEntries value)[i]? = some (key, v)) : child value key = some v := by
  cases value with
  | null | bool | int | real | str => cases h
  | arr items =>
    unfold childEntries at h
    rw [getElem?_map, getElem?_zipIdx] at h
    obtain ⟨⟨w, j⟩, hw, hpair⟩ := Option.map_eq_some_iff.mp h
    obtain ⟨w', hw', hindex⟩ := Option.map_eq_some_iff.mp hw
    cases hindex
    cases hpair
    rw [Nat.zero_add]
    exact child_item hw'
  | obj fields =>
    cases hvalue with
    | obj hkeys _ => exact child_field hkeys (mem_of_getElem? h)

end Indago
