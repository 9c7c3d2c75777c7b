import Lox.Env.Forest
import Lox.Proofs.Scoping.Resolver

/-!
# What changes in scopes

`Env.Changed declared assigned env env'`: from `env` to `env'` no scope has changed its file, the
innermost one has come to hold the names in `declared`, and otherwise only bindings of names in
`assigned` have changed, each where the chain finds it from inside. With no declarations
(`Env.Kept`) this is kept when steps follow one another.

Putting a changed chain back into a forest changes no other scope (`Forest.find?_restore`).
-/

set_option autoImplicit false

namespace Lox

/-- The scope has come to hold the names in `declared`, and has changed no other values than theirs
and those of names in `assigned`. -/
structure Scope.Changed (declared assigned : String → Prop) (s t : Scope) : Prop where
  file : t.file = s.file
  names : ∀ x, t.holds x = true ↔ s.holds x = true ∨ declared x
  values : ∀ x, ¬ declared x → ¬ assigned x → t.find? x = s.find? x

theorem Scope.find?_eq_none {s : Scope} {x : String} (h : ¬ s.holds x = true) :
    s.find? x = none := by
  simpa [holds] using h

namespace Env

/-- A name that an inner scope holds is not assigned further out. -/
inductive Changed : (declared assigned : String → Prop) → Env → Env → Prop
  | nil {declared assigned : String → Prop} : Changed declared assigned [] []
  | cons {declared assigned : String → Prop} {s t : Scope} {env env' : Env}
      (h : s.Changed declared assigned t)
      (h' : Changed (fun _ => False) (fun x => assigned x ∧ ¬ s.holds x = true) env env') :
      Changed declared assigned (s :: env) (t :: env')

/-- The scopes hold the same names, and only names in `assigned` may have other values. -/
abbrev Kept (assigned : String → Prop) : Env → Env → Prop := Changed (fun _ => False) assigned

namespace Changed

variable {declared assigned assigned' : String → Prop} {env env' env'' : Env}

theorem mono (h : Changed declared assigned env env') (ha : ∀ x, assigned x → assigned' x) :
    Changed declared assigned' env env' := by
  induction h generalizing assigned' with
  | nil => exact .nil
  | cons h _ ih =>
    refine .cons ⟨h.file, h.names, fun x hd hx => ?_⟩ (ih fun x hx => ⟨ha x hx.1, hx.2⟩)
    exact h.values x hd fun hx' => hx (ha x hx')

theorem ne_nil (h : Changed declared assigned env env') (hne : env ≠ []) : env' ≠ [] := by
  cases h with
  | nil => exact absurd rfl hne
  | cons => simp

end Changed

namespace Kept

variable {declared assigned : String → Prop} {env env' env'' : Env}

theorem refl (assigned : String → Prop) (env : Env) : Kept assigned env env := by
  induction env generalizing assigned with
  | nil => exact .nil
  | cons s env ih => exact .cons ⟨rfl, by simp, fun _ _ _ => rfl⟩ (ih _)

/-- After the first step the inner scopes hold the same names, so they hide the same names from the
second. -/
theorem trans (h : Kept assigned env env') (h' : Changed declared assigned env' env'') :
    Changed declared assigned env env'' := by
  induction env generalizing declared assigned env' env'' with
  | nil =>
    cases h
    cases h'
    exact .nil
  | cons s env ih =>
    cases h with
    | @cons _ _ _ t _ _ hs hrest =>
      cases h' with
      | cons ht hrest' =>
        have hnames : ∀ x, t.holds x = true ↔ s.holds x = true := by simpa using hs.names
        refine .cons ⟨ht.file.trans hs.file, fun x => ?_, fun x hd ha => ?_⟩ (ih hrest ?_)
        · rw [ht.names, hnames]
        · rw [ht.values x hd ha, hs.values x id ha]
        · exact hrest'.mono fun x hx => ⟨hx.1, fun h => hx.2 ((hnames x).2 h)⟩

theorem set? {name : String} {value : Value} (ha : assigned name)
    (h : Env.set? name value env = some env') : Kept assigned env env' := by
  induction env generalizing env' assigned with
  | nil => cases h
  | cons s env ih =>
    unfold Env.set? at h
    split at h
    · rename_i hs
      cases h
      refine .cons ⟨rfl, fun x => ?_, fun x _ hx => ?_⟩ (refl _ _)
      · rw [Scope.holds_define, or_false]
        constructor
        · intro hx
          rcases hx with rfl | hx
          · exact hs
          · exact hx
        · exact .inr
      · rw [Scope.find?_define, if_neg]
        rintro rfl
        exact hx ha
    · rename_i hs
      obtain ⟨rest, hrest, rfl⟩ := Option.map_eq_some_iff.1 h
      exact .cons ⟨rfl, by simp, fun _ _ _ => rfl⟩ (ih ⟨ha, hs⟩ hrest)

/-- A new scope hides nothing. -/
theorem leave (h : Kept assigned (Env.child env) env') : Kept assigned env (Env.leave env') := by
  cases h with
  | cons _ h => exact h.mono fun _ hx => hx.1

end Kept

/-- A definition changes the innermost scope only. -/
theorem Changed.define {assigned : String → Prop} {env : Env} (hne : env ≠ []) (name : String)
    (value : Value) : Changed (· = name) assigned env (Env.define name value env) := by
  cases env with
  | nil => exact absurd rfl hne
  | cons s env =>
    refine .cons ⟨rfl, fun x => ?_, fun x hx _ => ?_⟩ (Kept.refl _ _)
    · rw [Scope.holds_define, or_comm]
    · rw [Scope.find?_define, if_neg hx]

end Env

/-! ## Forests -/

namespace Forest

/-- The numbers of a scope and of those that enclose it, innermost first. -/
def path : Forest → Nat → List Nat
  | [], _ => []
  | newest :: older, n =>
    if n = older.length then
      n :: match newest.enclosing with
        | none => []
        | some m => path older m
    else path older n

/-- The value that scope number `k` itself binds to a name. -/
def find? (f : Forest) (k : Nat) (name : String) : Option Value :=
  f.scopes[k]?.bind (·.find? name)

/-- Whether scope number `k` itself binds the name. -/
def holds (f : Forest) (k : Nat) (name : String) : Bool := (f.find? k name).isSome

/-- The number of the nearest scope, from scope number `n` on outwards, that binds the name. -/
def owner? (f : Forest) (n : Nat) (name : String) : Option Nat :=
  (f.path n).find? fun k => f.holds k name

/-- The link and the file of each scope, newest first. -/
def frame (f : Forest) : List (Option Nat × Option String) :=
  f.map fun p => (p.enclosing, p.scope.file)

theorem lt_of_mem_path {f : Forest} {n k : Nat} (h : k ∈ f.path n) : k < f.length := by
  induction f generalizing n with
  | nil => cases h
  | cons newest older ih =>
    rw [List.length_cons]
    unfold path at h
    split at h
    · rcases List.mem_cons.1 h with rfl | h
      · omega
      · cases he : newest.enclosing with
        | none => simp [he] at h
        | some m =>
          rw [he] at h
          have := ih h
          omega
    · have := ih h
      omega

theorem getElem?_scopes_cons (newest : Planted) (older : Forest) (k : Nat) :
    (scopes (newest :: older))[k]? =
      if k = older.length then some newest.scope else older.scopes[k]? := by
  have hscopes : scopes (newest :: older) = older.scopes ++ [newest.scope] := by simp [scopes]
  have hlength : older.scopes.length = older.length := by simp [scopes]
  rw [hscopes]
  by_cases hk : k < older.length
  · rw [List.getElem?_append_left (by omega), if_neg (by omega)]
  · by_cases he : k = older.length
    · simp [he, hlength]
    · rw [List.getElem?_eq_none (by simp; omega), List.getElem?_eq_none (by omega), if_neg he]

theorem find?_cons (newest : Planted) (older : Forest) (k : Nat) (x : String) :
    find? (newest :: older) k x =
      if k = older.length then newest.scope.find? x else older.find? k x := by
  unfold find?
  rw [getElem?_scopes_cons]
  split <;> rfl

theorem owner?_cons (newest : Planted) (older : Forest) (n : Nat) (x : String) :
    owner? (newest :: older) n x =
      if n = older.length then
        if newest.scope.holds x then some n else newest.enclosing.bind fun m => owner? older m x
      else owner? older n x := by
  -- the path of an older scope does not lead to the newest one
  have hold : ∀ m, (path older m).find? (fun k => holds (newest :: older) k x) =
      owner? older m x := by
    intro m
    have hsame : ∀ k ∈ path older m, holds (newest :: older) k x = holds older k x := by
      intro k hk
      have hlt := lt_of_mem_path hk
      rw [holds, find?_cons, if_neg (by omega)]
      rfl
    unfold owner?
    generalize path older m = ks at hsame
    induction ks with
    | nil => rfl
    | cons k ks ih =>
      obtain ⟨hk, hks⟩ := List.forall_mem_cons.1 hsame
      rw [List.find?_cons, List.find?_cons, hk, ih hks]
  by_cases hn : n = older.length
  · have hfirst : holds (newest :: older) n x = newest.scope.holds x := by
      rw [holds, find?_cons, if_pos hn]
      rfl
    rw [owner?, path, if_pos hn, if_pos hn, List.find?_cons, hfirst]
    cases newest.scope.holds x with
    | true => rfl
    | false =>
      cases newest.enclosing with
      | none => rfl
      | some m => exact hold m
  · rw [owner?, path, if_neg hn, if_neg hn]
    exact hold n

/-- What a change of the chain of scope number `n` amounts to: no scope has other links or another
file, scope number `n` holds the names in `declared`, and only what it finds under a name in
`assigned` has another value. -/
structure Changed (declared assigned : String → Prop) (n : Nat) (f g : Forest) : Prop where
  frame : g.frame = f.frame
  names : ∀ k x, g.holds k x = true ↔ f.holds k x = true ∨ k = n ∧ n < f.length ∧ declared x
  values : ∀ k x, ¬ (k = n ∧ declared x) → ¬ (f.owner? n x = some k ∧ assigned x) →
    g.find? k x = f.find? k x

namespace Changed

variable {declared assigned : String → Prop} {n : Nat} {f g : Forest}

theorem length_eq (h : Changed declared assigned n f g) : g.length = f.length := by
  simpa [Forest.frame] using congrArg List.length h.frame

theorem refl (n : Nat) (f : Forest) : Changed (fun _ => False) assigned n f f :=
  ⟨rfl, by simp, fun _ _ _ _ => rfl⟩

/-- A change among the older scopes. -/
theorem older (h : Changed declared assigned n f g) (hn : n ≠ f.length) (newest : Planted) :
    Changed declared assigned n (newest :: f) (newest :: g) := by
  refine ⟨?_, fun k x => ?_, fun k x hd ha => ?_⟩
  · have hframe := h.frame
    simp only [Forest.frame, List.map_cons] at hframe ⊢
    rw [hframe]
  · have hnames := h.names k x
    unfold holds at hnames ⊢
    rw [find?_cons, find?_cons, h.length_eq, List.length_cons]
    by_cases hk : k = f.length
    · rw [if_pos hk, if_pos hk]
      have hne : ¬ k = n := by omega
      simp [hne]
    · rw [if_neg hk, if_neg hk, hnames]
      have hiff : (k = n ∧ n < f.length ∧ declared x) ↔ (k = n ∧ n < f.length + 1 ∧ declared x) := by
        constructor <;> rintro ⟨hk', hlt, hx⟩ <;> exact ⟨hk', by omega, hx⟩
      rw [hiff]
  · rw [owner?_cons, if_neg hn] at ha
    rw [find?_cons, find?_cons, h.length_eq, h.values k x hd ha]

/-- A change of the newest scope, and of those that enclose it. -/
theorem newest {s t : Scope} {enclosing : Option Nat} (hs : s.Changed declared assigned t)
    (h : ∀ m, enclosing = some m →
      Changed (fun _ => False) (fun x => assigned x ∧ ¬ s.holds x = true) m f g)
    (hnone : enclosing = none → g = f) :
    Changed declared assigned f.length (⟨s, enclosing⟩ :: f) (⟨t, enclosing⟩ :: g) := by
  have hrest : ∃ m, Changed (fun _ => False)
      (fun x => enclosing = some m ∧ assigned x ∧ ¬ s.holds x = true) m f g := by
    cases he : enclosing with
    | none =>
      rw [hnone he]
      exact ⟨0, refl 0 f⟩
    | some m => exact ⟨m, by simpa using h m he⟩
  obtain ⟨m, hrest⟩ := hrest
  refine ⟨?_, fun k x => ?_, fun k x hd ha => ?_⟩
  · have hframe := hrest.frame
    simp only [Forest.frame, List.map_cons, hs.file] at hframe ⊢
    rw [hframe]
  · have hnames := hrest.names k x
    unfold holds at hnames ⊢
    rw [find?_cons, find?_cons, hrest.length_eq]
    by_cases hk : k = f.length
    · rw [if_pos hk, if_pos hk]
      have hnames := hs.names x
      unfold Scope.holds at hnames
      simpa [hk] using hnames
    · rw [if_neg hk, if_neg hk]
      simpa [hk] using hnames
  · rw [owner?_cons, if_pos rfl] at ha
    rw [find?_cons, find?_cons, hrest.length_eq]
    by_cases hk : k = f.length
    · rw [if_pos hk, if_pos hk]
      have hdecl : ¬ declared x := fun hx => hd ⟨hk, hx⟩
      by_cases hx : s.holds x = true
      · exact hs.values x hdecl fun hx' => ha ⟨by simp [hx, hk], hx'⟩
      · have hx' : ¬ t.holds x = true := by
          rw [hs.names]
          simp [hx, hdecl]
        rw [Scope.find?_eq_none hx, Scope.find?_eq_none hx']
    · rw [if_neg hk, if_neg hk]
      refine hrest.values k x (by simp) fun hx => ha ?_
      obtain ⟨howner, he, hassigned, hholds⟩ := hx
      refine ⟨?_, hassigned⟩
      show (if s.holds x = true then some f.length else enclosing.bind fun m => owner? f m x) = _
      rw [if_neg hholds, he]
      exact howner

end Changed

/-- Putting a changed chain back changes no scope outside of it. -/
theorem changed_restore {declared assigned : String → Prop} {f : Forest} {n : Nat} {env : Env}
    (h : Env.Changed declared assigned (f.chain n) env) :
    Changed declared assigned n f (f.restore n env) := by
  induction f generalizing n declared assigned env with
  | nil => exact ⟨rfl, by simp [restore], fun _ _ _ _ => rfl⟩
  | cons newest older ih =>
    unfold chain at h
    unfold restore
    by_cases hn : n = older.length
    · rw [if_pos hn] at h ⊢
      subst hn
      cases h with
      | cons hs h =>
        refine .newest hs (fun m he => ?_) fun he => ?_
        · rw [he] at h ⊢
          exact ih h
        · rw [he]
    · rw [if_neg hn] at h ⊢
      exact (ih h).older hn newest

end Forest

end Lox
