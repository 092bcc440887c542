import Mars.Core.Text

/-! # The runtime's error type -/

namespace Mars

/-- Wrapped system errors keep their context text; the errno behind it is not read. -/
inductive Error where
  | notFound (id : String)
  | alreadyExists (id : String)
  | invalidId (id : String)
  | badState (id actual expected : String)
  | missingConfig (dir : String)
  | specField (field : String)
  | invalid (reason : String)
  | overlay (reason : String)
  | rootfsMissing (path : String)
  | executableNotFound (program : String)
  | nulByte (value : String)
  | initFailed (reason : String)
  | sync (reason : String)
  | syncClosed
  | outOfScope (what : String)
  | unimplemented (what : String)
  | noCgroupV2
  | io (context : String)
  | nix (context : String)
  | json
  | syscall
  deriving DecidableEq, Repr

/-- The text an error is reported with, up to the errno of a system call. -/
def Error.text : Error → String
  | .notFound id => "container " ++ id ++ " does not exist"
  | .alreadyExists id => "container " ++ id ++ " already exists"
  | .invalidId id => "invalid container id " ++ Text.debugText id ++
      ": must be non-empty and match [a-zA-Z0-9._+-]+"
  | .badState id actual expected =>
      "container " ++ id ++ " is " ++ actual ++ ", expected " ++ expected
  | .missingConfig dir => "bundle " ++ dir ++ " has no config.json"
  | .specField field => "config.json is missing required field " ++ field
  | .invalid reason => "config.json is invalid: " ++ reason
  | .overlay reason => "overlay rootfs: " ++ reason
  | .rootfsMissing path => "rootfs " ++ path ++ " does not exist or is not a directory"
  | .executableNotFound program => "executable " ++ Text.debugText program ++
      " not found in the container PATH"
  | .nulByte value => Text.debugText value ++
      " contains a nul byte and cannot be passed to execve"
  | .initFailed reason => "container init failed: " ++ reason
  | .sync reason => "synchronisation error: " ++ reason
  | .syncClosed => "synchronisation channel closed before the container reported readiness"
  | .outOfScope what => what ++ " is deliberately out of scope for mars"
  | .unimplemented what => what ++ " is not implemented yet"
  | .noCgroupV2 => "cgroup v2 unified hierarchy not found at /sys/fs/cgroup"
  | .io context => context
  | .nix context => context
  | .json => "json"
  | .syscall => "syscall"

/-! ## Sequences of fallible steps -/

@[simp] theorem pure_eq_ok {α : Type} {a b : α} :
    (pure a : Except Error α) = .ok b ↔ a = b := by
  simp [pure, Except.pure]

theorem bind_eq_ok {α β : Type} {x : Except Error α} {f : α → Except Error β} {b : β} :
    x >>= f = .ok b ↔ ∃ a, x = .ok a ∧ f a = .ok b := by
  cases x with
  | error e => simp [bind, Except.bind]
  | ok a => simp [bind, Except.bind]

/-- A call the system may refuse, with the error it is reported as. -/
def called {α : Type} (result : Option α) (error : Error) : Except Error α :=
  match result with
  | some a => .ok a
  | none => .error error

@[simp] theorem called_eq_ok {α : Type} {result : Option α} {error : Error} {a : α} :
    called result error = .ok a ↔ result = some a := by
  cases result with
  | none => simp [called]
  | some b => simp [called]

theorem mapM_cons_eq_ok {α β : Type} {f : α → Except Error β} {x : α} {xs : List α} {ys : List β} :
    (x :: xs).mapM f = .ok ys ↔ ∃ y rest, f x = .ok y ∧ xs.mapM f = .ok rest ∧ ys = y :: rest := by
  simp only [List.mapM_cons, bind_eq_ok, pure_eq_ok]
  constructor
  · rintro ⟨y, hy, rest, hrest, rfl⟩
    exact ⟨y, rest, hy, hrest, rfl⟩
  · rintro ⟨y, rest, hy, hrest, rfl⟩
    exact ⟨y, hy, rest, hrest, rfl⟩

theorem exists_unit {p : Unit → Prop} : (∃ a, p a) ↔ p () :=
  ⟨fun ⟨(), h⟩ => h, fun h => ⟨(), h⟩⟩

/-- A check in front of the rest. -/
theorem check_bind_eq_ok {β : Type} {x : Except Error Unit} {f : Unit → Except Error β} {b : β} :
    x >>= f = .ok b ↔ x = .ok () ∧ f () = .ok b := by
  rw [bind_eq_ok, exists_unit]

theorem forM_eq_ok {α : Type} {f : α → Except Error Unit} {xs : List α} :
    xs.forM f = .ok () ↔ ∀ x ∈ xs, f x = .ok () := by
  induction xs with
  | nil => simp
  | cons x rest ih =>
      have hcons : (x :: rest).forM f = f x >>= fun _ => rest.forM f := rfl
      rw [hcons, check_bind_eq_ok, ih, List.forall_mem_cons]

theorem foldlM_cons_eq_ok {α β : Type} {f : β → α → Except Error β} {x : α} {xs : List α}
    {b b' : β} :
    (x :: xs).foldlM f b = .ok b' ↔ ∃ c, f b x = .ok c ∧ xs.foldlM f c = .ok b' := by
  rw [List.foldlM_cons, bind_eq_ok]

/-- What the step of every element preserves holds at the end. -/
theorem foldlM_preserves_mem {α β : Type} {f : β → α → Except Error β} {P : β → Prop}
    {xs : List α} (hstep : ∀ x ∈ xs, ∀ b b', P b → f b x = .ok b' → P b') {b b' : β} (hb : P b)
    (h : xs.foldlM f b = .ok b') : P b' := by
  induction xs generalizing b with
  | nil => exact Except.ok.inj h ▸ hb
  | cons x xs ih =>
      obtain ⟨c, hc, hrest⟩ := foldlM_cons_eq_ok.mp h
      exact ih (fun y hy => hstep y (List.mem_cons_of_mem _ hy))
        (hstep x List.mem_cons_self b c hb hc) hrest

theorem foldlM_preserves {α β : Type} {f : β → α → Except Error β} {P : β → Prop}
    (hstep : ∀ b x b', P b → f b x = .ok b' → P b') {xs : List α} {b b' : β} (hb : P b)
    (h : xs.foldlM f b = .ok b') : P b' :=
  foldlM_preserves_mem (fun x _ b b' => hstep b x b') hb h

/-- What the step of one element brings about, and every later step preserves. -/
theorem foldlM_mem {α β : Type} {f : β → α → Except Error β} {P : β → Prop} {x : α}
    (hx : ∀ b b', f b x = .ok b' → P b') (hstep : ∀ b y b', P b → f b y = .ok b' → P b')
    {xs : List α} (hmem : x ∈ xs) {b b' : β} (h : xs.foldlM f b = .ok b') : P b' := by
  induction xs generalizing b with
  | nil => cases hmem
  | cons y ys ih =>
      obtain ⟨c, hc, hrest⟩ := foldlM_cons_eq_ok.mp h
      rcases List.mem_cons.mp hmem with rfl | hlater
      · exact foldlM_preserves hstep (hx b c hc) hrest
      · exact ih hlater hrest

end Mars
