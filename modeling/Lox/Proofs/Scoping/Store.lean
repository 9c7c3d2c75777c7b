import Lox.Proofs.Scoping.Changes
import Lox.Session

/-!
# Scopes as a store

A scope finds a name in the first scope that binds it on the way outwards (`Forest.owner?`), and
reads the value there (`Forest.lookup?`). To run in the chain of a scope and put the scopes back
amounts to one binding in one scope: a definition binds in the scope itself (`restore_define`), an
assignment in the owner of the name (`map_restore_set?`). What one binding changes is said for all
scopes at once (`lookup?_put`): those find it that come to the changed scope before any other one
with the name (`Forest.Meets`).

Main statement (`steps_scoped`): through any steps of a session the scopes keep their chains, and
after them they are a scoped store (`Session.Scoped`).
-/

set_option autoImplicit false

namespace Lox

namespace Forest

/-- The value that scope number `n` finds under a name. -/
def lookup? (f : Forest) (n : Nat) (x : String) : Option Value :=
  (f.owner? n x).bind fun k => f.find? k x

/-- The file of scope number `n`. -/
def file (f : Forest) (n : Nat) : Option String := f.scopes[n]?.bind (·.file)

/-- Binds a name in scope number `k`. -/
def put (k : Nat) (x : String) (v : Value) : Forest → Forest
  | [] => []
  | newest :: older =>
    if k = older.length then { newest with scope := newest.scope.define x v } :: older
    else newest :: put k x v older

/-- From scope number `n` outwards scope number `k` comes before any other that binds the name. -/
def Meets (f : Forest) (x : String) (n k : Nat) : Prop :=
  ∃ inner outer, f.path n = inner ++ k :: outer ∧ ∀ j ∈ inner, f.holds j x = false

/-! ## Finding names -/

theorem holds_of_owner? {f : Forest} {n k : Nat} {x : String} (h : f.owner? n x = some k) :
    f.holds k x = true := List.find?_some (p := fun k => f.holds k x) h

theorem lt_of_owner? {f : Forest} {n k : Nat} {x : String} (h : f.owner? n x = some k) :
    k < f.length := lt_of_mem_path (List.mem_of_find?_eq_some h)

theorem exists_of_owner? {f : Forest} {n k : Nat} {x : String} (h : f.owner? n x = some k) :
    ∃ v, f.find? k x = some v ∧ f.lookup? n x = some v := by
  obtain ⟨v, hv⟩ := Option.isSome_iff_exists.1 (holds_of_owner? h)
  refine ⟨v, hv, ?_⟩
  rw [lookup?, h]
  exact hv

theorem lookup?_cons (newest : Planted) (older : Forest) (n : Nat) (x : String) :
    lookup? (newest :: older) n x =
      if n = older.length then
        (newest.scope.find? x).or (newest.enclosing.bind fun m => older.lookup? m x)
      else older.lookup? n x := by
  -- the owner of an older scope is an older one
  have hold : ∀ m, (owner? older m x).bind (fun k => find? (newest :: older) k x) =
      older.lookup? m x := by
    intro m
    unfold lookup?
    cases ho : owner? older m x with
    | none => rfl
    | some k =>
      have hlt := lt_of_owner? ho
      rw [Option.bind_some, Option.bind_some, find?_cons, if_neg (by omega)]
  rw [lookup?, owner?_cons]
  by_cases hn : n = older.length
  · rw [if_pos hn, if_pos hn]
    cases hx : newest.scope.find? x with
    | some v =>
      have hholds : newest.scope.holds x = true := by rw [Scope.holds, hx]; rfl
      rw [if_pos hholds, Option.bind_some, find?_cons, if_pos hn, hx]
      rfl
    | none =>
      have hholds : ¬ newest.scope.holds x = true := by rw [Scope.holds, hx]; simp
      rw [if_neg hholds, Option.none_or]
      cases newest.enclosing with
      | none => rfl
      | some m => exact hold m
  · rw [if_neg hn, if_neg hn]
    exact hold n

theorem get?_chain (f : Forest) (n : Nat) (x : String) :
    Env.get? (f.chain n) x = f.lookup? n x := by
  induction f generalizing n with
  | nil => rfl
  | cons newest older ih =>
    rw [lookup?_cons, chain]
    by_cases hn : n = older.length
    · rw [if_pos hn, if_pos hn, Env.get?, List.findSome?_cons]
      cases newest.scope.find? x with
      | some v => rfl
      | none =>
        rw [Option.none_or]
        cases newest.enclosing with
        | none => rfl
        | some m => exact ih m
    · rw [if_neg hn, if_neg hn]
      exact ih n

theorem contains_chain (f : Forest) (n : Nat) (x : String) :
    Env.contains (f.chain n) x = (f.owner? n x).isSome := by
  have hnone := Env.get?_eq_none_iff (f.chain n) x
  rw [get?_chain] at hnone
  rw [Env.contains]
  cases ho : f.owner? n x with
  | none =>
    rw [hnone.1 (by rw [lookup?, ho]; rfl)]
  | some k =>
    obtain ⟨v, -, hv⟩ := exists_of_owner? ho
    cases hc : Env.owner? (f.chain n) x with
    | some _ => rfl
    | none =>
      rw [hnone.2 hc] at hv
      cases hv

theorem file_cons (newest : Planted) (older : Forest) (n : Nat) :
    file (newest :: older) n = if n = older.length then newest.scope.file else older.file n := by
  unfold file
  rw [getElem?_scopes_cons]
  split <;> rfl

theorem file_chain (f : Forest) (n : Nat) : Env.file (f.chain n) = f.file n := by
  induction f with
  | nil => rfl
  | cons newest older ih =>
    rw [file_cons, chain]
    by_cases hn : n = older.length
    · rw [if_pos hn, if_pos hn]
      rfl
    · rw [if_neg hn, if_neg hn]
      exact ih

/-! ## One binding -/

theorem length_put (f : Forest) (k : Nat) (x : String) (v : Value) :
    (f.put k x v).length = f.length := by
  induction f with
  | nil => rfl
  | cons newest older ih =>
    unfold put
    split
    · rfl
    · simp [ih]

theorem path_put (f : Forest) (k : Nat) (x : String) (v : Value) (n : Nat) :
    (f.put k x v).path n = f.path n := by
  induction f generalizing n with
  | nil => rfl
  | cons newest older ih =>
    unfold put
    split
    · rfl
    · simp only [path, length_put, ih]

theorem file_put (f : Forest) (k : Nat) (x : String) (v : Value) (n : Nat) :
    (f.put k x v).file n = f.file n := by
  induction f with
  | nil => rfl
  | cons newest older ih =>
    unfold put
    split
    · rw [file_cons, file_cons, Scope.file_define]
    · rw [file_cons, file_cons, length_put, ih]

theorem find?_put (f : Forest) (k : Nat) (x : String) (v : Value) (j : Nat) (y : String) :
    (f.put k x v).find? j y =
      if j = k ∧ k < f.length ∧ y = x then some v else f.find? j y := by
  induction f with
  | nil => simp [put]
  | cons newest older ih =>
    unfold put
    rw [List.length_cons]
    by_cases hk : k = older.length
    · rw [if_pos hk, find?_cons, find?_cons, Scope.find?_define]
      by_cases hj : j = older.length
      · simp [hj, hk]
      · have hne : ¬ j = k := by omega
        simp [hj, hne]
    · rw [if_neg hk, find?_cons, find?_cons, length_put, ih]
      by_cases hj : j = older.length
      · have hne : ¬ j = k := by omega
        rw [if_pos hj, if_pos hj, if_neg fun h => hne h.1]
      · have hlt : k < older.length ↔ k < older.length + 1 := by omega
        simp [hj, hlt]

/-- A definition in the chain of a scope binds in the scope itself. -/
theorem restore_define (f : Forest) (n : Nat) (x : String) (v : Value) :
    f.restore n (Env.define x v (f.chain n)) = f.put n x v := by
  induction f with
  | nil => rfl
  | cons newest older ih =>
    unfold restore chain put
    by_cases hn : n = older.length
    · rw [if_pos hn, if_pos hn, if_pos hn, Env.define]
      cases newest.enclosing with
      | none => rfl
      | some m => simp only [restore_chain]
    · rw [if_neg hn, if_neg hn, if_neg hn, ih]

/-- An assignment in the chain of a scope binds in the owner of the name. -/
theorem map_restore_set? (f : Forest) (n : Nat) (x : String) (v : Value) :
    (Env.set? x v (f.chain n)).map (f.restore n) = (f.owner? n x).map fun k => f.put k x v := by
  induction f generalizing n with
  | nil => rfl
  | cons newest older ih =>
    -- what an older scope assigns is put back among the older ones
    have hold : ∀ m, ((Env.set? x v (chain older m)).map fun env => newest :: restore older m env) =
        (owner? older m x).map fun k => put k x v (newest :: older) := by
      intro m
      have hput : ∀ k, owner? older m x = some k →
          put k x v (newest :: older) = newest :: put k x v older := by
        intro k hk
        have hlt := lt_of_owner? hk
        rw [put, if_neg (by omega)]
      have hm := congrArg (Option.map (newest :: ·)) (ih m)
      rw [Option.map_map, Option.map_map] at hm
      refine hm.trans ?_
      cases ho : owner? older m x with
      | none => rfl
      | some k => rw [Option.map_some, Option.map_some, hput k ho]; rfl
    rw [owner?_cons, chain]
    by_cases hn : n = older.length
    · rw [if_pos hn, if_pos hn, Env.set?]
      by_cases hx : newest.scope.holds x = true
      · rw [if_pos hx, if_pos hx, Option.map_some, Option.map_some, restore, if_pos hn, put,
          if_pos hn]
        cases newest.enclosing with
        | none => rfl
        | some m => simp only [restore_chain]
      · rw [if_neg hx, if_neg hx, Option.map_map]
        cases he : newest.enclosing with
        | none => rfl
        | some m =>
          rw [Option.bind_some, ← hold m]
          refine Option.map_congr fun env _ => ?_
          rw [Function.comp_apply, restore, if_pos hn]
          simp only [he]
          rw [← he]
    · rw [if_neg hn, if_neg hn, ← hold n]
      exact Option.map_congr fun env _ => if_neg hn

/-! ## What one binding changes -/

/-- The numbers on a path go down: a scope is enclosed by older ones. -/
theorem pairwise_path (f : Forest) (n : Nat) : (f.path n).Pairwise (· > ·) := by
  induction f generalizing n with
  | nil => exact .nil
  | cons newest older ih =>
    unfold path
    by_cases hn : n = older.length
    · rw [if_pos hn]
      cases newest.enclosing with
      | none => exact List.pairwise_singleton _ _
      | some m =>
        refine List.pairwise_cons.2 ⟨fun k hk => ?_, ih m⟩
        have hlt := lt_of_mem_path hk
        omega
    · rw [if_neg hn]
      exact ih n

/-- Searching for one more number finds what it found before, or that number. -/
theorem find?_or_of_ne {ks : List Nat} {k : Nat} {p : Nat → Bool}
    (h : ks.find? (fun j => j == k || p j) ≠ some k) :
    ks.find? (fun j => j == k || p j) = ks.find? p := by
  induction ks with
  | nil => rfl
  | cons j ks ih =>
    by_cases hj : j = k
    · simp [hj] at h
    · simp only [List.find?_cons, beq_false_of_ne hj, Bool.false_or] at h ⊢
      cases hp : p j with
      | true => rfl
      | false =>
        rw [hp] at h
        exact ih h

theorem meets_iff {f : Forest} {x : String} {n k : Nat} :
    f.Meets x n k ↔ (f.path n).find? (fun j => j == k || f.holds j x) = some k := by
  rw [List.find?_eq_some_iff_append]
  constructor
  · rintro ⟨inner, outer, hpath, hinner⟩
    have hsorted := pairwise_path f n
    rw [hpath, List.pairwise_append] at hsorted
    refine ⟨by simp, inner, outer, hpath, fun j hj => ?_⟩
    have hgt : j > k := hsorted.2.2 j hj k List.mem_cons_self
    have hne : j ≠ k := by omega
    simp [hne, hinner j hj]
  · rintro ⟨-, inner, outer, hpath, hinner⟩
    refine ⟨inner, outer, hpath, fun j hj => ?_⟩
    have hj := hinner j hj
    simp only [Bool.not_eq_true', Bool.or_eq_false_iff] at hj
    exact hj.2

instance (f : Forest) (x : String) (n k : Nat) : Decidable (f.Meets x n k) :=
  decidable_of_iff _ meets_iff.symm

/-- The owner of a name binds it, so the scopes that meet it are those with the same owner. -/
theorem meets_owner_iff {f : Forest} {x : String} {n m k : Nat} (h : f.owner? n x = some k) :
    f.Meets x m k ↔ f.owner? m x = some k := by
  have hsame : (fun j => j == k || f.holds j x) = fun j => f.holds j x := by
    funext j
    by_cases hj : j = k
    · simp [hj, holds_of_owner? h]
    · simp [hj]
  rw [meets_iff, hsame]
  rfl

theorem not_meets_of_le {f : Forest} {x : String} {n k : Nat} (h : f.length ≤ k) :
    ¬ f.Meets x n k := by
  rintro ⟨inner, outer, hpath, -⟩
  have hlt : k < f.length :=
    lt_of_mem_path (n := n) (by rw [hpath]; exact List.mem_append_right _ List.mem_cons_self)
  omega

theorem put_of_le {f : Forest} {k : Nat} (h : f.length ≤ k) (x : String) (v : Value) :
    f.put k x v = f := by
  induction f with
  | nil => rfl
  | cons newest older ih =>
    rw [List.length_cons] at h
    rw [put, if_neg (by omega), ih (by omega)]

/-- A name keeps its owner, but for the name that was bound, where the changed scope comes first. -/
theorem owner?_put {f : Forest} {k : Nat} (hk : k < f.length) (x : String) (v : Value) (n : Nat)
    (y : String) :
    (f.put k x v).owner? n y = if y = x ∧ f.Meets x n k then some k else f.owner? n y := by
  have hholds : ∀ j, (f.put k x v).holds j y = (decide (y = x) && j == k || f.holds j y) := by
    intro j
    rw [holds, find?_put]
    by_cases hj : j = k <;> by_cases hy : y = x <;> simp [hj, hy, hk, holds]
  have howner : (f.put k x v).owner? n y =
      (f.path n).find? fun j => decide (y = x) && j == k || f.holds j y := by
    simp only [owner?, path_put, hholds]
  rw [howner]
  by_cases hy : y = x
  · simp only [hy, decide_true, Bool.true_and, true_and]
    split
    · exact meets_iff.1 ‹_›
    · rename_i hnot
      rw [meets_iff] at hnot
      exact find?_or_of_ne hnot
  · simp [hy, owner?]

/-- Only scopes that meet the changed one find another value, and only under the name that was
bound. -/
theorem lookup?_put (f : Forest) (k : Nat) (x : String) (v : Value) (n : Nat) (y : String) :
    (f.put k x v).lookup? n y = if y = x ∧ f.Meets x n k then some v else f.lookup? n y := by
  by_cases hk : k < f.length
  · rw [lookup?, owner?_put hk]
    by_cases h : y = x ∧ f.Meets x n k
    · rw [if_pos h, if_pos h, Option.bind_some, find?_put, if_pos ⟨rfl, hk, h.1⟩]
    · rw [if_neg h, if_neg h, lookup?]
      cases ho : f.owner? n y with
      | none => rfl
      | some j =>
        rw [Option.bind_some, Option.bind_some, find?_put, if_neg]
        rintro ⟨rfl, -, rfl⟩
        exact h ⟨rfl, (meets_owner_iff ho).2 ho⟩
  · rw [put_of_le (by omega), if_neg fun h => not_meets_of_le (by omega) h.2]

/-! ## Forests that grow -/

/-- The scopes of `f` are still there in `g`, with the chains that they had. -/
structure Grown (f g : Forest) : Prop where
  length : f.length ≤ g.length
  path : ∀ n < f.length, g.path n = f.path n

theorem Grown.refl (f : Forest) : Grown f f := ⟨Nat.le_refl _, fun _ _ => rfl⟩

theorem Grown.trans {f g h : Forest} (h₁ : Grown f g) (h₂ : Grown g h) : Grown f h :=
  ⟨Nat.le_trans h₁.length h₂.length, fun n hn => by
    rw [h₂.path n (Nat.lt_of_lt_of_le hn h₁.length), h₁.path n hn]⟩

theorem path_restore (f : Forest) (k : Nat) (env : Env) (n : Nat) :
    (f.restore k env).path n = f.path n := by
  induction f generalizing k env n with
  | nil => rfl
  | cons newest older ih =>
    unfold restore
    by_cases hk : k = older.length
    · rw [if_pos hk]
      cases env with
      | nil => rfl
      | cons scope outer =>
        cases he : newest.enclosing with
        | none => simp only [path, he]
        | some m => simp only [path, he, length_restore, ih]
    · rw [if_neg hk]
      simp only [path, length_restore, ih]

theorem grown_restore (f : Forest) (k : Nat) (env : Env) : Grown f (f.restore k env) :=
  ⟨Nat.le_of_eq (length_restore f k env).symm, fun n _ => path_restore f k env n⟩

theorem grown_plant (f : Forest) (enclosing : Option Nat) (file : Option String) :
    Grown f (f.plant enclosing file) := by
  refine ⟨Nat.le_succ _, fun n hn => ?_⟩
  unfold plant
  rw [path, if_neg (by omega)]

end Forest

/-! ## Steps -/

namespace Session

/-- The session after steps taken one after the other. -/
def after (s : Session) (steps : List Step) : Session :=
  steps.foldl (fun s step => (s.step step).2) s

/-- The error of a step that finds no binding of a name. -/
def undefined (x : String) (access : Access) (line : Int) (file : Option String) : Result :=
  ⟨.error (.error (.run ⟨.undefined x access, line, file⟩)), ""⟩

theorem step_contains (s : Session) (n : Nat) (x : String) :
    s.step (.contains n x) = (⟨.ok (.truth (s.forest.owner? n x).isSome), ""⟩, s) := by
  rw [step, Forest.contains_chain]

theorem step_get (s : Session) (n : Nat) (x : String) (line : Int) :
    s.step (.get n x line) =
      (match s.forest.lookup? n x with
        | some v => ⟨.ok (.value v), ""⟩
        | none => undefined x .get line (s.forest.file n), s) := by
  have hget : Env.get? (s.forest.chain n) (name x line).lexeme = s.forest.lookup? n x :=
    s.forest.get?_chain n x
  simp only [step, runIn, Run.outcome, bind, EStateM.bind, Run.get, hget]
  cases s.forest.lookup? n x with
  | some v =>
    simp only [pure, EStateM.pure, Forest.restore_chain]
  | none =>
    simp only [Run.undefined, Forest.restore_chain, Forest.file_chain]
    rfl

theorem step_define (s : Session) (n : Nat) (x : String) (v : Value) :
    s.step (.define n x v) = (⟨.ok .done, ""⟩, { s with forest := s.forest.put n x v }) := by
  rw [← Forest.restore_define]
  rfl

theorem step_set (s : Session) (n : Nat) (x : String) (v : Value) (line : Int) :
    s.step (.set n x v line) =
      match s.forest.owner? n x with
      | some k => (⟨.ok .done, ""⟩, { s with forest := s.forest.put k x v })
      | none => (undefined x .set line (s.forest.file n), s) := by
  have hset := s.forest.map_restore_set? n x v
  simp only [step, runIn, Run.outcome, bind, EStateM.bind, Run.set, name]
  cases hr : Env.set? x v (s.forest.chain n) with
  | some env =>
    rw [hr, Option.map_some] at hset
    cases ho : s.forest.owner? n x with
    | none => rw [ho] at hset; cases hset
    | some k =>
      rw [ho, Option.map_some] at hset
      simp only [pure, EStateM.pure, Option.some.inj hset]
  | none =>
    rw [hr, Option.map_none] at hset
    cases ho : s.forest.owner? n x with
    | some k => rw [ho] at hset; cases hset
    | none =>
      simp only [Run.undefined, Forest.restore_chain, Forest.file_chain]
      rfl

/-! ## What steps keep -/

theorem grown_runIn (s : Session) (n : Nat) (run : Run Answer) :
    s.forest.Grown (s.runIn n run).2.forest := Forest.grown_restore _ _ _

theorem grown_runCode (s : Session) (n : Nat) (code : Code) (run : List Node → Run Unit) :
    s.forest.Grown (s.runCode n code run).2.forest := by
  unfold runCode
  cases s.program code with
  | error e => exact .refl _
  | ok statements => exact s.grown_runIn n _

theorem grown_step (s : Session) (step : Step) : s.forest.Grown (s.step step).2.forest := by
  cases step with
  | child n => exact s.forest.grown_plant (some n) none
  | plant enclosing file => exact s.forest.grown_plant enclosing file
  | define n x v => exact s.grown_runIn n _
  | get n x line => exact s.grown_runIn n _
  | set n x v line => exact s.grown_runIn n _
  | contains n x => exact .refl _
  | interpret n code => exact s.grown_runCode n code _
  | block n code => exact s.grown_runCode n code _
  | execute n code => exact s.grown_runCode n code _
  | evaluate n formula =>
    simp only [Session.step]
    cases s.formula formula with
    | error e => exact .refl _
    | ok node => exact s.grown_runIn n _

theorem grown_after (s : Session) (steps : List Step) : s.forest.Grown (s.after steps).forest := by
  induction steps generalizing s with
  | nil => exact .refl _
  | cons step steps ih => exact (s.grown_step step).trans (ih (s.step step).2)

/-- The scopes of a session are a scoped store. -/
structure Scoped (s : Session) : Prop where
  /-- No chain comes to a scope twice. -/
  acyclic : ∀ n, (s.forest.path n).Pairwise (· > ·)
  contains : ∀ n x, s.step (.contains n x) = (⟨.ok (.truth (s.forest.owner? n x).isSome), ""⟩, s)
  /-- A name with an owner can be read, with the value that it has there, and assigned. -/
  bound : ∀ n x k, s.forest.owner? n x = some k → ∀ v line,
    (∃ w, s.forest.find? k x = some w ∧ s.step (.get n x line) = (⟨.ok (.value w), ""⟩, s)) ∧
      (s.step (.set n x v line)).1 = ⟨.ok .done, ""⟩
  /-- A name without an owner can be neither read nor assigned, and the failure changes nothing. -/
  unbound : ∀ n x, s.forest.owner? n x = none → ∀ v line,
    s.step (.get n x line) = (undefined x .get line (s.forest.file n), s) ∧
      s.step (.set n x v line) = (undefined x .set line (s.forest.file n), s)
  /-- An assignment is seen by the scopes that share the owner. -/
  afterSet : ∀ n x v line, (s.step (.set n x v line)).1 = ⟨.ok .done, ""⟩ → ∀ m y later,
    ((s.step (.set n x v line)).2.step (.get m y later)).1 =
      if y = x ∧ s.forest.owner? m x = s.forest.owner? n x then ⟨.ok (.value v), ""⟩
      else (s.step (.get m y later)).1
  /-- A definition is seen by the scopes that meet its scope before another one with the name. -/
  afterDefine : ∀ n x v m y later,
    ((s.step (.define n x v)).2.step (.get m y later)).1 =
      if y = x ∧ s.forest.Meets x m n then ⟨.ok (.value v), ""⟩
      else (s.step (.get m y later)).1

/-- What reading gives after one binding was put in one scope. -/
theorem get_put (s : Session) (k : Nat) (x : String) (v : Value) (n : Nat) (y : String)
    (line : Int) :
    (({ s with forest := s.forest.put k x v } : Session).step (.get n y line)).1 =
      if y = x ∧ s.forest.Meets x n k then ⟨.ok (.value v), ""⟩
      else (s.step (.get n y line)).1 := by
  rw [step_get, step_get, Forest.lookup?_put, Forest.file_put]
  by_cases h : y = x ∧ s.forest.Meets x n k
  · rw [if_pos h, if_pos h]
  · rw [if_neg h, if_neg h]

/-- Through any steps the scopes keep their chains, and after them they are a scoped store. -/
theorem steps_scoped (s : Session) (steps : List Step) :
    s.forest.Grown (s.after steps).forest ∧ (s.after steps).Scoped := by
  refine ⟨s.grown_after steps, ?_⟩
  generalize s.after steps = t
  refine ⟨t.forest.pairwise_path, t.step_contains, fun n x k hk v line => ?_,
    fun n x hnone v line => ⟨?_, ?_⟩, fun n x v line hdone m y later => ?_,
    fun n x v m y later => ?_⟩
  · obtain ⟨w, hfind, hlookup⟩ := Forest.exists_of_owner? hk
    refine ⟨⟨w, hfind, ?_⟩, ?_⟩
    · rw [step_get, hlookup]
    · rw [step_set, hk]
  · rw [step_get, Forest.lookup?, hnone]
    rfl
  · rw [step_set, hnone]
  · rw [step_set] at hdone ⊢
    cases hk : t.forest.owner? n x with
    | none =>
      rw [hk] at hdone
      cases hdone
    | some k => simp only [get_put, Forest.meets_owner_iff hk]
  · rw [step_define, get_put]

end Session

end Lox
