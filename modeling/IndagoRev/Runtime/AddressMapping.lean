import IndagoRev.JsonValues

/-!
# Runtime and static addresses

`location` says which module of a session an address lies in, and what its address in the
file is.  `resolve_address` goes the other way, from a selector of a module and an address
or an offset in it.  Addresses are 64-bit values, and are written in hexadecimal.
-/

namespace Indago

open StdText JsonValues Transactions

/-- `std::from_chars` of an unsigned 64-bit value: digits of the base, and no overflow. -/
def fromChars (hex : Bool) (digits : Text) : Option UInt64 :=
  let isDigit (c : Char) : Bool :=
    if hex then c.isDigit || ('a' ≤ c && c ≤ 'f') || ('A' ≤ c && c ≤ 'F') else c.isDigit
  let value (c : Char) : Nat :=
    if 'A' ≤ c && c ≤ 'F' then c.toNat - 'A'.toNat + 10 else hexDigit c
  let n := digits.foldl (fun n c => (if hex then 16 else 10) * n + value c) 0
  if digits ≠ [] ∧ digits.all isDigit = true ∧ n < 2 ^ 64 then some (UInt64.ofNat n) else none

/-- `runtime_number`. -/
def runtimeNumber : Json → Except String UInt64
  | .int n =>
    if 0 ≤ n ∧ n < 2 ^ 64 then .ok (UInt64.ofNat n.toNat)
    else .error "expected unsigned integer or hexadecimal address"
  | .str s =>
    let (hex, digits) := if startsWith "0x" s then (true, s.drop 2) else (false, s)
    match fromChars hex digits with
    | some n => .ok n
    | none => .error "invalid runtime integer"
  | _ => .error "expected unsigned integer or hexadecimal address"

/-- `hex_address`. -/
def Runtime.hexAddress (n : UInt64) : Text := "0x" ++ hexDigits n.toNat

open Indago.Runtime

/-- A module as it is recorded. A file that could not be read has no hash and no image. -/
structure RuntimeModule where
  id : Text
  base : UInt64
  size : Option UInt64
  artifact : Option Text
  imageBase : Option UInt64
  deriving DecidableEq

/-- A session. Every module that is recorded has an id of its own. -/
structure AddressedSession where
  artifact : Option Text
  modules : List RuntimeModule
  ids : (modules.map RuntimeModule.id).Nodup

/-- The range of a module. -/
def RuntimeModule.contains (m : RuntimeModule) (address : UInt64) : Bool :=
  decide (m.base ≤ address) && decide (address - m.base < m.size.getD 0)

/-- What is said of an address. -/
structure AddressLocation where
  runtimeAddress : Text
  moduleId : Option Text := none
  artifact : Option Text := none
  rva : Option Text := none
  address : Option Text := none
  mapped : Bool := false

/-- The loop over the modules. A module without hash or image gives its name only. -/
def locate (address : UInt64) : List RuntimeModule → AddressLocation → AddressLocation
  | [], l => l
  | m :: rest, l =>
    if m.contains address = false then locate address rest l
    else
      let l := { l with moduleId := some m.id }
      match m.artifact, m.imageBase with
      | some artifact, some preferred =>
        if 0xffffffffffffffff - (address - m.base) < preferred then locate address rest l
        else
          { l with
            artifact := some artifact
            rva := some (hexAddress (address - m.base))
            address := some (hexAddress (preferred + (address - m.base)))
            mapped := true }
      | _, _ => locate address rest l

/-- `location`. -/
def location (session : AddressedSession) (address : UInt64) : AddressLocation :=
  locate address session.modules { runtimeAddress := hexAddress address }

/-- A request for an address. -/
structure AddressRequest where
  address : Option Json := none
  function : Option Text := none
  staticAddress : Option Json := none
  rva : Option Json := none
  module : Option Text := none
  artifact : Option Text := none

section Resolve

-- What the store says of a function: its address, and the artifact that it is in.
variable (functionLocation : Text → Except String (Json × Text))

/-- The request with the address of its function. -/
def AddressRequest.selector (r : AddressRequest) : Except String AddressRequest :=
  match r.function with
  | none => .ok r
  | some function => do
    let (address, artifact) ← functionLocation function
    pure { r with staticAddress := some address, artifact := some artifact }

/-- Whether a selector takes a module. -/
def takesModule (session : AddressedSession) (selector : AddressRequest) (m : RuntimeModule) :
    Bool :=
  let artifact := selector.artifact.getD (session.artifact.getD [])
  (selector.module.isNone || decide (selector.module = some m.id)) &&
    (artifact.isEmpty || decide (m.artifact.getD [] = artifact))

/-- The address that a selector has in a module, if it takes it. -/
def addressIn (session : AddressedSession) (selector : AddressRequest) (m : RuntimeModule) :
    Except String (Option UInt64) :=
  if takesModule session selector m = false then .ok none
  else
    match m.imageBase with
    | none => .ok none
    | some preferred => do
      let value ← runtimeNumber ((selector.rva.or selector.staticAddress).getD .null)
      if selector.rva.isNone ∧ value < preferred then pure none
      else
        let rva := if selector.rva.isSome then value else value - preferred
        match m.size with
        | none => .error "type_error.302"
        | some size =>
          if rva < size ∧ m.base ≤ 0xffffffffffffffff - rva then pure (some (m.base + rva))
          else pure none

/-- `resolve_address`. An address that is given is the answer; otherwise exactly one
module has to match. -/
def resolveAddress (session : AddressedSession) (r : AddressRequest) : Except String UInt64 :=
  match r.address with
  | some address => runtimeNumber address
  | none => do
    let selector ← r.selector functionLocation
    if selector.staticAddress.isNone ∧ selector.rva.isNone then
      .error "address, static_address, rva, or function required"
    else do
      let found ← session.modules.mapM (addressIn session selector)
      match found.reduceOption with
      | [address] => pure address
      | _ => .error ("static address needs exactly one loaded module; " ++
          "specify module/artifact or retry after load")

end Resolve

end Indago
