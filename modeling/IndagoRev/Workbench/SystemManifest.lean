import IndagoRev.Schedules
import IndagoRev.Text
import IndagoRev.Transactions

/-!
# System manifests

A manifest places components at paths of a guest and launches some of them.  An accepted one
keeps the components apart, and orders the launches by what they depend on.  Their paths stay
inside the root of the guest unless Windows drops blanks in front of an extension.  What is
checked of the environment, the requirements and the limits comes after that and is left out.

* `guestPath_ok` says which segments an accepted path has;
* `readComponents_ok` and `readLaunches_ok` carry what one turn of each loop keeps;
* `launchOrder_ok` makes the order a schedule of all launches;
* `system_manifests_iff` decides which accepted manifests stay inside.
-/

namespace Indago.SystemManifest

open StdText Schedules Transactions List

structure ComponentInput where
  name : Text
  targetId : Text
  artifactSha256 : Option Text
  role : Text
  path : Text

structure LaunchInput where
  name : Text
  component : Text
  argv : List Text
  dependsOn : List Text
  readiness : Option Text
  stdinComponent : Option Text

structure ManifestInput where
  os : Text
  architecture : Text
  isolation : Option Text
  reset : Option Text
  network : Option Text
  components : List ComponentInput
  launches : List LaunchInput

structure ImportedTarget where
  id : Text
  sha256 : Text
  size : Nat

structure Component where
  name : Text
  target : ImportedTarget
  role : Text
  path : Text

structure Launch where
  name : Text
  component : Text
  argv : List Text
  dependsOn : List Text
  readiness : Text
  stdinComponent : Option Text

structure Manifest where
  os : Text
  architecture : Text
  network : Text
  components : List Component
  launches : List Launch
  launchOrder : List Text

/-- `field`. -/
def field (key : String) (most : Nat) (s : Text) : Except String Text :=
  if s.isEmpty ∨ most < s.length ∨ '\x00' ∈ s then .error ("invalid manifest field: " ++ key)
  else .ok s

def identifier (s : Text) : Except String Unit :=
  if s.isEmpty ∨ 128 < s.length ∨ ¬ s.all (fun c => c.isAlphanum || c = '_' || c = '-') then
    .error "invalid identifier"
  else .ok ()

/-- The names of devices, whatever follows them behind a dot. -/
def isDevice (stem : Text) : Bool :=
  (["CON", "PRN", "AUX", "NUL", "CONIN$", "CONOUT$"] : List Text).contains stem ||
    (stem.length = 4 && (startsWith "COM" stem || startsWith "LPT" stem) &&
      '1' ≤ stem.getD 3 '0' && stem.getD 3 '0' ≤ '9')

def stemOf (part : Text) : Text := (part.takeWhile (· ≠ '.')).map Char.toUpper

variable (windows : Bool)

/-- One segment of the loop of `guest_path`. -/
def checkPart (part : Text) : Except String Unit :=
  if part = [] ∨ part = "." ∨ part = ".." ∨ part.getLast? = some '.' ∨
      part.getLast? = some ' ' then
    .error "guest path contains unsafe segment"
  else if windows ∧ isDevice (stemOf part) then
    .error "guest path contains a reserved Windows device name"
  else .ok ()

variable (path : Text)

def guestPath (windows : Bool) : Except String Text := do
  let path := path.map (fun c => if c = '\\' then '/' else c)
  if path.isEmpty ∨ 512 < path.length ∨ path.head? = some '/' ∨ path.getLast? = some '/' then
    .error "guest path must be a bounded relative path"
  else if path.any (fun c => c.toNat < 32 || c.toNat = 127 || (windows && 128 ≤ c.toNat) ||
      (":<>\"|?*" : Text).contains c) then
    .error "invalid guest path character"
  else do
    (path.splitOn '/').forM (checkPart windows)
    pure path

/-- The path that is compared with the others. -/
def pathKey : Text :=
  if windows then path.map Char.toLower else path

def overlaps (key existing : Text) : Bool :=
  startsWith (existing ++ ['/']) key || startsWith (key ++ ['/']) existing

section Components

variable (target : Text → Except String ImportedTarget) (windows : Bool)

def readComponent (names keys : List Text) (c : ComponentInput) : Except String Component := do
  let name ← field "name" 64 c.name
  identifier name
  if name ∈ names then .error "duplicate component name"
  else do
    let t ← target (← field "target_id" 128 c.targetId)
    if ∃ sha ∈ c.artifactSha256, sha ≠ t.sha256 then .error "component target/hash mismatch"
    else do
      let role ← field "role" 16 c.role
      if role ∉ (["program", "service", "library", "driver", "data"] : List Text) then
        .error "unsupported component role"
      else do
        let path ← guestPath (← field "path" 512 c.path) windows
        if keys.any (overlaps (pathKey windows path)) then
          .error "guest component paths overlap a file and directory"
        else if pathKey windows path ∈ keys then .error "duplicate guest component path"
        else pure ⟨name, t, role, path⟩

/-- The loop over the components, with those that it has read. -/
def readComponents : List ComponentInput → List Component → Except String (List Component)
  | [], read => .ok read
  | c :: rest, read => do
    let component ← readComponent target windows (read.map Component.name)
      (read.map (fun c => pathKey windows c.path)) c
    readComponents rest (read ++ [component])

end Components

def readLaunch (components : List Component) (known : List Text) (l : LaunchInput) :
    Except String Launch := do
  let name ← field "name" 64 l.name
  identifier name
  let component ← field "component" 64 l.component
  if component ∉ components.map Component.name then .error "launch references unknown component"
  else if components.any (fun c => c.name = component &&
      (c.role = ("library" : Text) || c.role = ("data" : Text))) then
    .error "launch requires a program, service or driver component"
  else if 32 < l.argv.length then .error "manifest list exceeds its bound"
  else if l.argv.any (fun a => 1024 < a.length || a.contains '\x00') then
    .error "invalid literal launch argument"
  else if 32 < l.dependsOn.length then .error "manifest list exceeds its bound"
  else if ¬ l.dependsOn.Nodup then .error "duplicate or invalid launch dependency"
  else if l.readiness.getD "process_started" ∉
      (["process_started", "service_ready", "operator_signal"] : List Text) then
    .error "unsupported readiness obligation"
  else do
    let stdin ← l.stdinComponent.mapM (field "stdin_component" 64)
    if ∃ c ∈ stdin, c ∉ components.map Component.name then
      .error "stdin references unknown component"
    else if name ∈ known then .error "duplicate launch name"
    else pure ⟨name, component, l.argv, l.dependsOn, l.readiness.getD "process_started", stdin⟩

def readLaunches (components : List Component) : List LaunchInput → List Launch →
    Except String (List Launch)
  | [], read => .ok read
  | l :: rest, read => do
    let launch ← readLaunch components (read.map Launch.name) l
    readLaunches components rest (read ++ [launch])

variable (launches : List Launch)

/-- The dependencies of a launch by its name. -/
def dependencies (name : Text) : List Text :=
  ((launches.find? (fun l => l.name = name)).map Launch.dependsOn).getD []

def faultText : Fault → String
  | .unknown => "unknown launch dependency"
  | .cyclic => "cyclic launch dependencies"
  | .stuck => "no sweep is left"

/-- The loop that orders the launches, over the map of them by their names. -/
def launchOrder : Except String (List Text) :=
  (schedule (dependencies launches)
    ((launches.map Launch.name).insertionSort (· ≤ ·)) launches.length []).mapError faultText

variable (target : Text → Except String ImportedTarget) (input : ManifestInput)

/-- `canonical_manifest`, up to the order of the launches. -/
def canonicalManifest : Except String Manifest := do
  let os ← field "os" 16 input.os
  let architecture ← field "architecture" 16 input.architecture
  let network := input.network.getD "disconnected"
  if os ∉ (["windows", "linux"] : List Text) ∨
      architecture ∉ (["x86", "x64", "mixed"] : List Text) then
    .error "manifest supports Windows/Linux x86/x64 only"
  else if input.isolation.getD "vm" ≠ ("vm" : Text) ∨
      input.reset.getD "snapshot" ≠ ("snapshot" : Text) then
    .error "manifest requires a disposable VM snapshot; host/WSL execution is not granted"
  else if network ∉ (["disconnected", "simulated"] : List Text) then
    .error "manifest does not grant external networking"
  else if 32 < input.components.length then .error "manifest list exceeds its bound"
  else if input.components.isEmpty then .error "manifest needs at least one imported component"
  else do
    let components ← readComponents target (os = ("windows" : Text)) input.components []
    if 32 < input.launches.length then .error "manifest list exceeds its bound"
    else do
      let launches ← readLaunches components input.launches []
      let order ← launchOrder launches
      pure ⟨os, architecture, network, components, launches, order⟩

/-- How a guest reads a path: on Windows either separator splits it, and letters are the same
in either case. -/
def segments : List Text :=
  (path.map (fun c => if windows && c = '\\' then '/' else c)).splitOn '/'

def place : List Text :=
  (segments windows path).map (pathKey windows)

def deviceNames : List Text :=
  ["CON", "PRN", "AUX", "NUL", "CONIN$", "CONOUT$", "COM1", "COM2", "COM3", "COM4", "COM5", "COM6",
    "COM7", "COM8", "COM9", "LPT1", "LPT2", "LPT3", "LPT4", "LPT5", "LPT6", "LPT7", "LPT8", "LPT9"]

/-- The name that Windows looks up among its devices: an extension does not count, nor do the
blanks in front of it. -/
def deviceName (part : Text) : Text := (stemOf part).rdropWhile (· = ' ')

/-- A segment leads to a name below the place where it stands: it is not empty, no dots, no
drive and no device, and has no end that Windows would drop. -/
structure Inside (windows : Bool) (part : Text) : Prop where
  named : part ≠ [] ∧ part ≠ "." ∧ part ≠ ".."
  kept : part.getLast? ≠ some '.' ∧ part.getLast? ≠ some ' '
  drive : ':' ∉ part
  device : windows = true → deviceName part ∉ deviceNames

/-- What `checkPart` sees of a segment: blanks in front of an extension count. -/
structure Checked (windows : Bool) (part : Text) : Prop where
  named : part ≠ [] ∧ part ≠ "." ∧ part ≠ ".."
  kept : part.getLast? ≠ some '.' ∧ part.getLast? ≠ some ' '
  drive : ':' ∉ part
  device : windows = true → stemOf part ∉ deviceNames

/-- A segment names a device behind blanks that Windows drops. -/
def BlankedDevice (part : Text) : Prop :=
  (stemOf part).getLast? = some ' ' ∧ deviceName part ∈ deviceNames

instance (part : Text) : Decidable (BlankedDevice part) := inferInstanceAs (Decidable (_ ∧ _))

/-- A segment without blanks in front of its extension is what Windows looks up. -/
theorem deviceName_eq {part : Text} (h : (stemOf part).getLast? ≠ some ' ') :
    deviceName part = stemOf part := by
  refine rdropWhile_eq_self_iff.mpr (fun hne hlast => h ?_)
  rw [getLast?_eq_getLast_of_ne_nil hne, of_decide_eq_true hlast]

/-- The check misses the blanked devices, and nothing else. -/
theorem Checked.inside_iff {windows : Bool} {part : Text} (h : Checked windows part) :
    Inside windows part ↔ (windows = true → ¬ BlankedDevice part) := by
  constructor
  · exact fun hinside hwindows hblanked => hinside.device hwindows hblanked.2
  · refine fun hplain => ⟨h.named, h.kept, h.drive, fun hwindows hmem => ?_⟩
    by_cases hblank : (stemOf part).getLast? = some ' '
    · exact hplain hwindows ⟨hblank, hmem⟩
    · rw [deviceName_eq hblank] at hmem
      exact h.device hwindows hmem

theorem checkPart_ok {windows : Bool} {part : Text} (hdrive : ':' ∉ part)
    (h : checkPart windows part = .ok ()) : Checked windows part := by
  unfold checkPart at h
  split at h
  · cases h
  next hsafe =>
    split at h
    · cases h
    next hdevice =>
      simp only [not_or] at hsafe
      refine ⟨⟨hsafe.1, hsafe.2.1, hsafe.2.2.1⟩, hsafe.2.2.2, hdrive, fun hwindows hmem => ?_⟩
      have hall : ∀ stem ∈ deviceNames, isDevice stem = true := by decide
      exact hdevice ⟨hwindows, hall _ hmem⟩

theorem forM_ok {α : Type} {f : α → Except String Unit} {l : List α} (h : l.forM f = .ok ()) :
    ∀ a ∈ l, f a = .ok () := by
  induction l with
  | nil => exact fun _ ha => nomatch ha
  | cons b l ih =>
    change (f b >>= fun _ => l.forM f) = _ at h
    obtain ⟨_, hb, hrest⟩ := except_bind_ok.mp h
    exact forall_mem_cons.mpr ⟨hb, ih hrest⟩

variable {x : Char}

theorem intercalate_append {l m : List Text} (hl : l ≠ []) (hm : m ≠ []) :
    [x].intercalate (l ++ m) = [x].intercalate l ++ x :: [x].intercalate m := by
  induction l with
  | nil => exact absurd rfl hl
  | cons a l ih =>
    cases l with
    | nil =>
      rw [singleton_append, intercalate_cons_of_ne_nil hm, intercalate_singleton,
        append_assoc]
      rfl
    | cons b l =>
      rw [cons_append, intercalate_cons_of_ne_nil (by simp), ih (by simp),
        intercalate_cons_cons]
      simp only [append_assoc]

theorem map_intercalate {f : Char → Char} (hf : f x = x) (l : List Text) :
    ([x].intercalate l).map f = [x].intercalate (l.map (List.map f)) := by
  induction l with
  | nil => rfl
  | cons a l ih =>
    cases l with
    | nil => rw [map_singleton, intercalate_singleton, intercalate_singleton]
    | cons b l =>
      rw [intercalate_cons_cons, map_append, map_append, ih, map_singleton, hf]
      exact intercalate_cons_cons.symm

theorem mem_splitOn {t part : Text} (h : part ∈ t.splitOn x) : part ⊆ t := by
  have hsubset : ∀ l : List Text, part ∈ l → part ⊆ [x].intercalate l := by
    intro l hl
    induction l with
    | nil => cases hl
    | cons a l ih =>
      cases l with
      | nil =>
        rw [mem_singleton.mp hl, intercalate_singleton]
        exact List.Subset.refl a
      | cons b l =>
        rw [intercalate_cons_cons]
        obtain rfl | hl := mem_cons.mp hl
        · exact fun c hc => mem_append_left _ (mem_append_left _ hc)
        · exact fun c hc => mem_append_right _ (ih hl hc)
  have hpart := hsubset _ h
  rwa [intercalate_splitOn] at hpart

/-- An accepted path has no other separators, and its segments were checked. -/
theorem guestPath_ok {path out : Text} {windows : Bool} (h : guestPath path windows = .ok out) :
    out = path.map (fun c => if c = '\\' then '/' else c) ∧ '\\' ∉ out ∧
      ∀ part ∈ out.splitOn '/', Checked windows part := by
  unfold guestPath at h
  dsimp only at h
  split at h
  · cases h
  split at h
  · cases h
  next hchars =>
    obtain ⟨_, hparts, h⟩ := except_bind_ok.mp h
    cases h
    refine ⟨rfl, ?_, fun part hpart => checkPart_ok ?_ (forM_ok hparts part hpart)⟩
    · intro hmem
      obtain ⟨c, _, hc⟩ := mem_map.mp hmem
      split at hc
      · cases hc
      · contradiction
    · intro hcolon
      refine hchars (any_eq_true.mpr ⟨':', mem_splitOn hpart hcolon, ?_⟩)
      simp

section Places

variable {windows : Bool} {path other : Text}

theorem segments_eq (h : '\\' ∉ path) : segments windows path = path.splitOn '/' := by
  have hsame : path.map (fun c => if windows && c = '\\' then '/' else c) = path := by
    refine (map_congr_left (fun c hc => ?_)).trans (map_id path)
    have hne : c ≠ '\\' := fun heq => h (heq ▸ hc)
    simp [hne]
  unfold segments
  rw [hsame]

theorem place_key (h : '\\' ∉ path) : ['/'].intercalate (place windows path) =
    pathKey windows path := by
  unfold place
  rw [segments_eq h]
  cases windows with
  | false =>
    have hsame : pathKey false = id := rfl
    rw [hsame, map_id]
    exact intercalate_splitOn '/'
  | true =>
    have hmap : pathKey true = List.map Char.toLower := rfl
    rw [hmap, ← map_intercalate rfl, intercalate_splitOn]

/-- A place above another one is seen by the comparison of the paths. -/
theorem place_above (h : '\\' ∉ path) (hother : '\\' ∉ other)
    (habove : place windows path <+: place windows other) :
    pathKey windows path = pathKey windows other ∨
      startsWith (pathKey windows path ++ ['/']) (pathKey windows other) = true := by
  obtain ⟨rest, hrest⟩ := habove
  have hne : place windows path ≠ [] := by
    unfold place
    rw [segments_eq h]
    exact fun heq => splitOn_ne_nil '/' path (map_eq_nil_iff.mp heq)
  rw [← place_key h, ← place_key hother, ← hrest]
  by_cases hnil : rest = []
  · exact .inl (by rw [hnil, append_nil])
  · refine .inr (List.isPrefixOf_iff_prefix.mpr ⟨['/'].intercalate rest, ?_⟩)
    rw [intercalate_append hne hnil, append_assoc]
    rfl

end Places

/-- Neither of two components is at the place of the other or below it. -/
def Apart (a b : Component) : Prop :=
  ¬ place windows a.path <+: place windows b.path ∧ ¬ place windows b.path <+: place windows a.path

/-- Components that stand apart, with segments that were checked, at the given paths. -/
structure Placed (windows : Bool) (input : List ComponentInput) (components : List Component) :
    Prop where
  apart : components.Pairwise (Apart windows)
  slashes : ∀ c ∈ components, '\\' ∉ c.path
  checked : ∀ c ∈ components, ∀ part ∈ segments windows c.path, Checked windows part
  given : components.map (fun c => segments true c.path) = input.map (fun c => segments true c.path)

theorem field_ok {key : String} {most : Nat} {s out : Text} (h : field key most s = .ok out) :
    out = s := by
  unfold field at h
  split at h
  · cases h
  · cases h
    rfl

variable {target : Text → Except String ImportedTarget} {windows : Bool} {c : ComponentInput}
  {sources : List ComponentInput} {out : Component}

theorem readComponent_ok {names keys : List Text}
    (h : readComponent target windows names keys c = .ok out) :
    segments true out.path = segments true c.path ∧
      '\\' ∉ out.path ∧ (∀ part ∈ segments windows out.path, Checked windows part) ∧
      ∀ key ∈ keys, overlaps (pathKey windows out.path) key = false ∧
        pathKey windows out.path ≠ key := by
  unfold readComponent at h
  obtain ⟨name, _, h⟩ := except_bind_ok.mp h
  obtain ⟨_, _, h⟩ := except_bind_ok.mp h
  split at h
  · cases h
  obtain ⟨id, _, h⟩ := except_bind_ok.mp h
  obtain ⟨t, _, h⟩ := except_bind_ok.mp h
  split at h
  · cases h
  obtain ⟨role, _, h⟩ := except_bind_ok.mp h
  split at h
  · cases h
  obtain ⟨given, hgiven, h⟩ := except_bind_ok.mp h
  rw [field_ok hgiven] at h
  obtain ⟨path, hpath, h⟩ := except_bind_ok.mp h
  split at h
  · cases h
  next hoverlaps =>
    split at h
    · cases h
    next hkey =>
      cases h
      obtain ⟨hsame, hslash, hchecked⟩ := guestPath_ok hpath
      refine ⟨?_, hslash, ?_, fun key hmem => ⟨?_, fun heq => hkey (heq ▸ hmem)⟩⟩
      · rw [segments_eq hslash, hsame]
        simp only [segments, Bool.true_and, decide_eq_true_eq]
      · rw [segments_eq hslash]
        exact hchecked
      · by_contra hover
        exact hoverlaps (any_eq_true.mpr ⟨key, hmem, by simpa using hover⟩)

theorem Placed.snoc {read : List Component}
    (hread : Placed windows sources read) (h : readComponent target windows (read.map Component.name)
      (read.map (fun c => pathKey windows c.path)) c = .ok out) :
    Placed windows (sources ++ [c]) (read ++ [out]) := by
  obtain ⟨hsame, hslash, hchecked, hkeys⟩ := readComponent_ok h
  refine ⟨pairwise_append.mpr ⟨hread.apart, pairwise_singleton _ _, ?_⟩, ?_, ?_, ?_⟩
  · intro a ha b hb
    rw [mem_singleton.mp hb]
    obtain ⟨hover, hne⟩ := hkeys _ (mem_map_of_mem ha)
    unfold overlaps at hover
    rw [Bool.or_eq_false_iff] at hover
    constructor
    · intro habove
      obtain heq | hbelow := place_above (hread.slashes a ha) hslash habove
      · exact hne heq.symm
      · rw [hover.1] at hbelow
        cases hbelow
    · intro habove
      obtain heq | hbelow := place_above hslash (hread.slashes a ha) habove
      · exact hne heq
      · rw [hover.2] at hbelow
        cases hbelow
  · exact forall_mem_append.mpr ⟨hread.slashes, forall_mem_singleton.mpr hslash⟩
  · exact forall_mem_append.mpr ⟨hread.checked, forall_mem_singleton.mpr hchecked⟩
  · rw [map_append, map_append, hread.given, map_singleton, map_singleton, hsame]

theorem readComponents_ok {more : List ComponentInput} {read out : List Component}
    (hread : Placed windows sources read) (h : readComponents target windows more read = .ok out) :
    Placed windows (sources ++ more) out := by
  induction more generalizing sources read with
  | nil =>
    cases h
    rw [append_nil]
    exact hread
  | cons c more ih =>
    obtain ⟨component, hcomponent, hrest⟩ := except_bind_ok.mp h
    rw [← singleton_append, ← append_assoc]
    exact ih (hread.snoc hcomponent) hrest

/-- What is kept of a launch, and which components it names. -/
structure Reads (components : List Component) (l : LaunchInput) (launch : Launch) : Prop where
  name : launch.name = l.name
  dependsOn : launch.dependsOn = l.dependsOn
  component : l.component ∈ components.map Component.name
  stdin : ∀ c ∈ l.stdinComponent, c ∈ components.map Component.name

variable {components : List Component}

theorem readLaunch_ok {known : List Text} {l : LaunchInput}
    {launch : Launch} (h : readLaunch components known l = .ok launch) :
    Reads components l launch ∧ launch.name ∉ known := by
  unfold readLaunch at h
  obtain ⟨name, hname, h⟩ := except_bind_ok.mp h
  obtain ⟨_, _, h⟩ := except_bind_ok.mp h
  obtain ⟨component, hcomponent, h⟩ := except_bind_ok.mp h
  rw [field_ok hname, field_ok hcomponent] at h
  split at h
  · cases h
  next hcomponent =>
    split at h
    · cases h
    split at h
    · cases h
    split at h
    · cases h
    split at h
    · cases h
    split at h
    · cases h
    split at h
    · cases h
    obtain ⟨stdin, hstdin, h⟩ := except_bind_ok.mp h
    split at h
    · cases h
    next hfound =>
      split at h
      · cases h
      next hnew =>
        cases h
        refine ⟨⟨rfl, rfl, not_not.mp hcomponent, fun c hc => ?_⟩, hnew⟩
        have hsame : stdin = l.stdinComponent := by
          cases hinput : l.stdinComponent with
          | none => rw [hinput] at hstdin; cases hstdin; rfl
          | some given =>
            rw [hinput] at hstdin
            obtain ⟨read, hread, hstdin⟩ := except_bind_ok.mp hstdin
            cases hstdin
            rw [field_ok hread]
        by_contra habsent
        exact hfound ⟨c, hsame ▸ hc, habsent⟩

theorem readLaunches_ok {input : List LaunchInput}
    {read out : List Launch} (hread : (read.map Launch.name).Nodup)
    (h : readLaunches components input read = .ok out) : (out.map Launch.name).Nodup ∧
      ∃ new, out = read ++ new ∧ List.Forall₂ (Reads components) input new := by
  induction input generalizing read with
  | nil =>
    cases h
    exact ⟨hread, [], (append_nil _).symm, .nil⟩
  | cons l input ih =>
    obtain ⟨launch, hlaunch, hrest⟩ := except_bind_ok.mp h
    obtain ⟨hreads, hnew⟩ := readLaunch_ok hlaunch
    have hnodup : ((read ++ [launch]).map Launch.name).Nodup := by
      rw [map_append]
      exact (perm_append_singleton _ _).nodup_iff.mpr (nodup_cons.mpr ⟨hnew, hread⟩)
    obtain ⟨hout, new, rfl, hall⟩ := ih hnodup hrest
    exact ⟨hout, launch :: new, append_assoc _ _ _, .cons hreads hall⟩

theorem reads_names {input : List LaunchInput}
    {launches : List Launch} (h : List.Forall₂ (Reads components) input launches) :
    input.map LaunchInput.name = launches.map Launch.name := by
  induction h with
  | nil => rfl
  | cons hread _ ih => rw [map_cons, map_cons, hread.name, ih]

theorem dependencies_eq {launches : List Launch} (h : (launches.map Launch.name).Nodup)
    {l : Launch} (hl : l ∈ launches) : dependencies launches l.name = l.dependsOn := by
  unfold dependencies
  cases hfind : launches.find? (fun l' => l'.name = l.name) with
  | none => exact absurd (find?_eq_none.mp hfind l hl) (by simp)
  | some l' =>
    have hname := find?_some hfind
    rw [inj_on_of_nodup_map h (mem_of_find?_eq_some hfind) hl (by simpa using hname)]
    rfl

/-- The order of the launches is a schedule of all of them. -/
theorem launchOrder_ok {launches : List Launch} {order : List Text}
    (h : launchOrder launches = .ok order) : Scheduled (dependencies launches)
      ((launches.map Launch.name).insertionSort (· ≤ ·)) order ∧
      launches.length ≤ order.length := by
  unfold launchOrder at h
  cases hschedule : schedule (dependencies launches)
      ((launches.map Launch.name).insertionSort (· ≤ ·)) launches.length [] with
  | error e => rw [hschedule] at h; cases h
  | ok found =>
    rw [hschedule] at h
    cases h
    have hall := schedule_ok .nil hschedule
    rw [length_insertionSort, length_map] at hall
    exact hall

/-- The sweeps always end. -/
theorem launchOrder_ends : launchOrder launches ≠ .error (faultText .stuck) := by
  have hends : schedule (dependencies launches) ((launches.map Launch.name).insertionSort (· ≤ ·))
      launches.length [] ≠ .error .stuck := schedule_not_stuck .nil
    (by rw [length_insertionSort, length_map, length_nil, Nat.zero_add])
  unfold launchOrder
  cases hschedule : schedule (dependencies launches)
      ((launches.map Launch.name).insertionSort (· ≤ ·)) launches.length [] with
  | ok order => exact fun h => nomatch h
  | error e =>
    rw [hschedule] at hends
    cases e with
    | unknown => exact fun h => absurd (Except.error.inj h) (by decide)
    | cyclic => exact fun h => absurd (Except.error.inj h) (by decide)
    | stuck => exact absurd rfl hends

/-- What every accepted manifest keeps: its order, its names, and its components apart. -/
structure Ordered (input : ManifestInput) (m : Manifest) : Prop where
  order : m.launchOrder.Perm (input.launches.map LaunchInput.name)
  distinct : m.launchOrder.Nodup
  after : ∀ l ∈ input.launches, ∀ d ∈ l.dependsOn,
    d ∈ m.launchOrder ∧ m.launchOrder.idxOf d < m.launchOrder.idxOf l.name
  components : ∀ l ∈ input.launches, l.component ∈ m.components.map Component.name ∧
    ∀ c ∈ l.stdinComponent, c ∈ m.components.map Component.name
  apart : m.components.Pairwise (Apart (m.os = ("windows" : Text)))

/-- What an accepted manifest owes: it is ordered, and inside the guest. -/
structure Accepted (input : ManifestInput) (m : Manifest) : Prop extends Ordered input m where
  inside : ∀ c ∈ m.components, ∀ part ∈ segments (m.os = ("windows" : Text)) c.path,
    Inside (m.os = ("windows" : Text)) part

/-- No path of a manifest for Windows has a segment that names a device behind blanks. -/
def Unblanked (input : ManifestInput) : Prop :=
  input.os = ("windows" : Text) →
    ∀ c ∈ input.components, ∀ part ∈ segments true c.path, ¬ BlankedDevice part

/-- The places of an accepted manifest, in the segments of its input. -/
theorem Placed.inside_iff {components : List Component} (h : Placed windows sources components) :
    (∀ c ∈ components, ∀ part ∈ segments windows c.path, Inside windows part) ↔
      (windows = true → ∀ c ∈ sources, ∀ part ∈ segments true c.path, ¬ BlankedDevice part) := by
  calc (∀ c ∈ components, ∀ part ∈ segments windows c.path, Inside windows part)
      ↔ ∀ c ∈ components, ∀ part ∈ segments windows c.path,
          (windows = true → ¬ BlankedDevice part) :=
        forall₂_congr (fun c hc => forall₂_congr (fun part hpart =>
          (h.checked c hc part hpart).inside_iff))
    _ ↔ (windows = true → ∀ c ∈ sources, ∀ part ∈ segments true c.path, ¬ BlankedDevice part) := by
        cases windows with
        | false => simp only [Bool.false_eq_true, false_implies, implies_true]
        | true =>
          have hplaces := forall_mem_map (f := fun c : Component => segments true c.path)
            (l := components) (P := fun place => ∀ part ∈ place, ¬ BlankedDevice part)
          rw [h.given, forall_mem_map] at hplaces
          simp only [true_implies]
          exact hplaces.symm

theorem accepted {input : ManifestInput} {m : Manifest}
    (h : canonicalManifest target input = .ok m) :
    Ordered input m ∧ (Accepted input m ↔ Unblanked input) := by
  unfold canonicalManifest at h
  obtain ⟨os, hos, h⟩ := except_bind_ok.mp h
  rw [field_ok hos] at h
  obtain ⟨architecture, _, h⟩ := except_bind_ok.mp h
  dsimp only at h
  iterate 5
    split at h
    · cases h
  obtain ⟨components, hcomponents, h⟩ := except_bind_ok.mp h
  split at h
  · cases h
  obtain ⟨launches, hlaunches, h⟩ := except_bind_ok.mp h
  obtain ⟨order, horder, h⟩ := except_bind_ok.mp h
  cases h
  have hplaced : Placed _ ([] ++ input.components) components := readComponents_ok
    ⟨.nil, (fun _ h => nomatch h), (fun _ h => nomatch h), rfl⟩ hcomponents
  obtain ⟨hnodup, new, hnew, hreads⟩ := readLaunches_ok
    (show (([] : List Launch).map Launch.name).Nodup from nodup_nil) hlaunches
  rw [nil_append] at hnew
  subst hnew
  obtain ⟨hscheduled, hlength⟩ := launchOrder_ok horder
  have hnames := reads_names hreads
  have hperm : order.Perm (launches.map Launch.name) :=
    (hscheduled.perm (by rwa [length_insertionSort, length_map])).trans
      (perm_insertionSort _ _)
  have hread : ∀ l ∈ input.launches, ∃ launch ∈ launches, Reads components l launch := by
    intro l hl
    obtain ⟨i, hi, rfl⟩ := getElem_of_mem hl
    have hless : i < launches.length := by rw [← hreads.length_eq]; exact hi
    exact ⟨launches[i], getElem_mem hless, hreads.get hi hless⟩
  have hordered : Ordered input ⟨input.os, architecture, input.network.getD "disconnected",
      components, launches, order⟩ := by
    refine ⟨hnames.symm ▸ hperm, hscheduled.nodup, ?_, ?_, hplaced.apart⟩
    · intro l hl d hd
      obtain ⟨launch, hlaunch, hsame⟩ := hread l hl
      refine hscheduled.earlier (.single ?_) (hperm.mem_iff.mpr ?_)
      · rw [← hsame.name, dependencies_eq hnodup hlaunch, hsame.dependsOn]
        exact hd
      · rw [← hsame.name]
        exact mem_map_of_mem hlaunch
    · intro l hl
      obtain ⟨launch, _, hsame⟩ := hread l hl
      exact ⟨hsame.component, hsame.stdin⟩
  have hinside := hplaced.inside_iff
  rw [nil_append] at hinside
  simp only [decide_eq_true_eq] at hinside
  exact ⟨hordered, fun h => hinside.mp h.inside, fun h => ⟨hordered, hinside.mpr h⟩⟩

/-- A launch of a manifest depends on another one. -/
def Needs (d name : Text) : Prop :=
  ∃ l ∈ input.launches, l.name = name ∧ d ∈ l.dependsOn

/-- **System manifests.**  An accepted manifest is ordered and keeps its components apart, and
it stays inside the guest exactly when no segment is a blanked device; one with an unknown
dependency or a cycle is rejected; the sweeps end. -/
theorem system_manifests_iff (target : Text → Except String ImportedTarget)
    (input : ManifestInput) :
    (∀ m, canonicalManifest target input = .ok m →
      Ordered input m ∧ (Accepted input m ↔ Unblanked input)) ∧
    ((∃ d name, Needs input d name ∧ d ∉ input.launches.map LaunchInput.name) ∨
      (∃ name, Relation.TransGen (Needs input) name name) →
        ∃ e, canonicalManifest target input = .error e) ∧
    ∀ launches, launchOrder launches ≠ .error (faultText .stuck) := by
  refine ⟨fun m h => accepted h, fun hbad => ?_, launchOrder_ends⟩
  cases hresult : canonicalManifest target input with
  | error e => exact ⟨e, rfl⟩
  | ok m =>
    have haccepted := (accepted hresult).1
    rcases hbad with ⟨d, name, ⟨l, hl, _, hd⟩, hunknown⟩ | ⟨name, hcycle⟩
    · exact absurd (haccepted.order.mem_iff.mp (haccepted.after l hl d hd).1) hunknown
    · have hless : ∀ {d name : Text}, Relation.TransGen (Needs input) d name →
          m.launchOrder.idxOf d < m.launchOrder.idxOf name := by
        intro d name h
        induction h with
        | single h =>
          obtain ⟨l, hl, rfl, hd⟩ := h
          exact (haccepted.after l hl _ hd).2
        | tail _ h ih =>
          obtain ⟨l, hl, rfl, hd⟩ := h
          exact Nat.lt_trans ih (haccepted.after l hl _ hd).2
      exact absurd (hless hcycle) (Nat.lt_irrefl _)

/-- A client that waits for its server. -/
def clientAndServer : ManifestInput where
  os := "windows"
  architecture := "x64"
  isolation := none
  reset := none
  network := none
  components := [⟨"server", "t1", none, "service", "bin\\s.exe"⟩,
    ⟨"client", "t2", none, "program", "c.exe"⟩]
  launches := [⟨"c", "client", [], ["s"], none, none⟩, ⟨"s", "server", [], [], none, none⟩]

/-- The imported targets of the examples. -/
def anyTarget : Text → Except String ImportedTarget := fun id => .ok ⟨id, [], 0⟩

theorem system_manifests_clientAndServer : ∃ m, m.launchOrder = (["s", "c"] : List Text) ∧
    Accepted clientAndServer m := by
  have horder : (canonicalManifest anyTarget clientAndServer).toOption.map Manifest.launchOrder =
      some (["s", "c"] : List Text) := by decide
  have hall := (system_manifests_iff anyTarget clientAndServer).1
  cases h : canonicalManifest anyTarget clientAndServer with
  | error e =>
    rw [h] at horder
    cases horder
  | ok m =>
    rw [h] at horder
    refine ⟨m, Option.some.inj horder, (hall m h).2.mpr (fun _ => ?_)⟩
    decide

/-- A data file whose name Windows reads as the device `NUL`. -/
def blankedDevice : ManifestInput where
  os := "windows"
  architecture := "x64"
  isolation := none
  reset := none
  network := none
  components := [⟨"data", "t1", none, "data", "nul .txt"⟩]
  launches := []

/-- The manifest is accepted, and its component stands at a device. -/
theorem blankedDevice_accepted : ∃ m, canonicalManifest anyTarget blankedDevice = .ok m ∧
    ∃ c ∈ m.components, ∃ part ∈ segments true c.path, deviceName part ∈ deviceNames ∧
      ¬ Inside true part := by
  have hdevice : deviceName "nul .txt" ∈ deviceNames := by decide
  exact ⟨_, rfl, _, mem_singleton.mpr rfl, "nul .txt", by decide, hdevice,
    fun h => h.device rfl hdevice⟩

end Indago.SystemManifest
