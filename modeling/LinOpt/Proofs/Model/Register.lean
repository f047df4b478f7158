import LinOpt.Proofs.Model.Built
import Mathlib.Data.Finset.Dedup
import Mathlib.Data.Finset.Insert

namespace LinOpt

variable {S C : Type}

inductive Call (S C : Type)
  | declare (kind : VariableKind) (interval : Interval S) (name : String)
  | declareContinuous (interval : Interval S) (name : String)
  | declareInteger (interval : Interval S) (name : String)
  | declareBinary (name : String)
  | addConstraint (c : Constraint S C)
  | addConstraints (cs : List (Constraint S C))

abbrev Answer (S : Type) := Except BuildError (Option (Variable S))

def registered? : Answer S → Option (Variable S)
  | .ok v => v
  | .error _ => none

namespace Call

variable [Scalar S]

def asked? : Call S C → Option (Variable S)
  | .declare kind interval name => some ⟨name, interval, kind⟩
  | .declareContinuous interval name => some ⟨name, interval, .continuous⟩
  | .declareInteger interval name => some ⟨name, interval, .integer⟩
  | .declareBinary name => some ⟨name, .binary, .binary⟩
  | .addConstraint _ | .addConstraints _ => none

def constraints : Call S C → List (Constraint S C)
  | .addConstraint c => [c]
  | .addConstraints cs => cs
  | .declare .. | .declareContinuous .. | .declareInteger .. | .declareBinary .. => []

end Call

structure Register (S C : Type) extends Draft S C where
  names : Finset String := ∅

namespace Register

/-- A change in place. If it fails, what has been changed by then stays. -/
abbrev Change (S C α : Type) := ExceptT BuildError (StateM (Register S C)) α

def register (v : Variable S) : Change S C (Option (Variable S)) := do
  modify fun r => { r with names := insert v.name r.names }
  modify fun r => { r with «variables» := r.variables ++ [v] }
  return some v

def declare (kind : VariableKind) (interval : Interval S) (name : String) :
    Change S C (Option (Variable S)) := do
  if name ∈ (← get).names then throw (.nameTaken name) else register ⟨name, interval, kind⟩

def addConstraints (cs : List (Constraint S C)) : Change S C (Option (Variable S)) := do
  modify fun r => { r with constraints := r.constraints ++ cs }
  return none

variable [Scalar S]

def perform : Call S C → Change S C (Option (Variable S))
  | .declare kind interval name => declare kind interval name
  | .declareContinuous interval name => declare .continuous interval name
  | .declareInteger interval name => declare .integer interval name
  | .declareBinary name => declare .binary .binary name
  | .addConstraint c => addConstraints [c]
  | .addConstraints cs => addConstraints cs

def call (r : Register S C) (c : Call S C) : Answer S × Register S C := (perform c).run.run r

def answers (r : Register S C) : List (Call S C) → List (Answer S)
  | [] => []
  | c :: cs => (r.call c).1 :: answers (r.call c).2 cs

def after (r : Register S C) (cs : List (Call S C)) : Register S C :=
  cs.foldl (fun r c => (r.call c).2) r

omit [Scalar S] in
theorem run_declare (r : Register S C) (kind : VariableKind) (interval : Interval S) (name : String) :
    (declare kind interval name).run.run r =
      if name ∈ r.names then (.error (.nameTaken name), r)
      else (.ok (some ⟨name, interval, kind⟩), { r with
        «variables» := r.variables ++ [⟨name, interval, kind⟩]
        names := insert name r.names }) := by
  show (ite (name ∈ r.names) (throw _) (register _) : Change S C (Option (Variable S))).run.run r = _
  split <;> rfl

theorem call_eq (r : Register S C) (c : Call S C) : r.call c =
    match c.asked? with
    | none => (.ok none, { r with constraints := r.constraints ++ c.constraints })
    | some v =>
      if v.name ∈ r.names then (.error (.nameTaken v.name), r)
      else (.ok (some v), { r with
        «variables» := r.variables ++ [v]
        names := insert v.name r.names }) := by
  cases c with
  | declare kind interval name => exact run_declare r kind interval name
  | declareContinuous interval name => exact run_declare r .continuous interval name
  | declareInteger interval name => exact run_declare r .integer interval name
  | declareBinary name => exact run_declare r .binary .binary name
  | addConstraint c => rfl
  | addConstraints cs => rfl

/-- The names are those of the variables, and no two variables share one. -/
structure InStep (r : Register S C) : Prop where
  names : r.names = (r.variables.map (·.name)).toFinset
  nodup : (r.variables.map (·.name)).Nodup

variable {r : Register S C}

omit [Scalar S] in
theorem InStep.mem_names (h : InStep r) {name : String} :
    name ∈ r.names ↔ name ∈ r.variables.map (·.name) := by
  rw [h.names, List.mem_toFinset]

theorem InStep.call (h : InStep r) (c : Call S C) : InStep (r.call c).2 := by
  rw [call_eq]
  split
  case h_1 => exact ⟨h.names, h.nodup⟩
  case h_2 v hv =>
    split
    case isTrue => exact h
    case isFalse hfresh =>
      constructor
      · ext name
        rw [Finset.mem_insert, h.mem_names, List.mem_toFinset, List.map_append, List.mem_append,
          List.map_singleton, List.mem_singleton, or_comm]
      · rw [List.map_append, List.map_singleton, ← List.concat_eq_append]
        exact h.nodup.concat (mt h.mem_names.mpr hfresh)

theorem call_of_error {c : Call S C} {e : BuildError} (h : (r.call c).1 = .error e) :
    (r.call c).2 = r := by
  rw [call_eq] at h ⊢
  split
  case h_1 hnone =>
    rw [hnone] at h
    cases h
  case h_2 v hsome =>
    rw [hsome] at h
    dsimp only at h
    split at h
    case isTrue hmem => exact congrArg Prod.snd (if_pos hmem)
    case isFalse => cases h

theorem variables_call (r : Register S C) (c : Call S C) :
    (r.call c).2.variables = r.variables ++ (registered? (r.call c).1).toList := by
  rw [call_eq]
  split
  case h_1 => exact (List.append_nil _).symm
  case h_2 =>
    split
    case isTrue => exact (List.append_nil _).symm
    case isFalse => rfl

theorem constraints_call (r : Register S C) (c : Call S C) :
    (r.call c).2.constraints = r.constraints ++ c.constraints := by
  rw [call_eq]
  cases c with
  | addConstraint | addConstraints => rfl
  | declare | declareContinuous | declareInteger | declareBinary =>
      rw [Call.constraints, List.append_nil]
      split
      · rename_i h
        cases h
      · split <;> rfl

end Register

namespace Draft

variable [Scalar S]

def call (d : Draft S C) : Call S C → Except BuildError (Option (Variable S) × Draft S C)
  | .declare kind interval name => (d.declare kind interval name).map (Prod.map some id)
  | .declareContinuous interval name => (d.declareContinuous interval name).map (Prod.map some id)
  | .declareInteger interval name => (d.declareInteger interval name).map (Prod.map some id)
  | .declareBinary name => (d.declareBinary name).map (Prod.map some id)
  | .addConstraint c => .ok (none, d.addConstraint c)
  | .addConstraints cs => .ok (none, d.addConstraints cs)

/-- A call that fails is left out. -/
def next (d : Draft S C) (c : Call S C) : Draft S C := ((d.call c).map (·.2)).toOption.getD d

theorem call_eq (d : Draft S C) (c : Call S C) : d.call c =
    match c.asked? with
    | none => .ok (none, { d with constraints := d.constraints ++ c.constraints })
    | some v =>
      if v.name ∈ d.variables.map (·.name) then .error (.nameTaken v.name)
      else .ok (some v, { d with «variables» := d.variables ++ [v] }) := by
  have hdeclare (kind : VariableKind) (interval : Interval S) (name : String) :
      (d.declare kind interval name).map (Prod.map some id) =
        if name ∈ d.variables.map (·.name) then .error (.nameTaken name)
        else .ok (some ⟨name, interval, kind⟩,
          { d with «variables» := d.variables ++ [⟨name, interval, kind⟩] }) := by
    split
    case isTrue h =>
      have hany : d.variables.any (·.name == name) = true := by simpa using h
      rw [declare, hany]
      rfl
    case isFalse h =>
      rw [declare_of_fresh h]
      rfl
  cases c with
  | declare kind interval name => exact hdeclare kind interval name
  | declareContinuous interval name => exact hdeclare .continuous interval name
  | declareInteger interval name => exact hdeclare .integer interval name
  | declareBinary name => exact hdeclare .binary .binary name
  | addConstraint c => rfl
  | addConstraints cs => rfl

end Draft

namespace Register

variable [Scalar S] {r : Register S C}

/-- The set of names makes no difference to what a call answers and what it does to the draft. -/
theorem InStep.draft_call (h : InStep r) (c : Call S C) :
    r.toDraft.call c = (r.call c).1.map fun v => (v, (r.call c).2.toDraft) := by
  rw [Draft.call_eq, call_eq]
  split
  case h_1 => rfl
  case h_2 v hv =>
    simp only [← h.mem_names]
    split <;> rfl

theorem InStep.after (h : InStep r) (cs : List (Call S C)) : InStep (r.after cs) := by
  induction cs generalizing r with
  | nil => exact h
  | cons c cs ih => exact ih (h.call c)

theorem InStep.draft_next (h : InStep r) (c : Call S C) :
    (r.call c).2.toDraft = r.toDraft.next c := by
  rw [Draft.next, h.draft_call]
  cases hanswer : (r.call c).1 with
  | error e => exact congrArg toDraft (call_of_error hanswer)
  | ok v => rfl

theorem InStep.draft_after (h : InStep r) (cs : List (Call S C)) :
    (r.after cs).toDraft = cs.foldl Draft.next r.toDraft := by
  induction cs generalizing r with
  | nil => rfl
  | cons c cs ih =>
      rw [List.foldl_cons, ← h.draft_next]
      exact ih (h.call c)

theorem variables_after (r : Register S C) (cs : List (Call S C)) :
    (r.after cs).variables = r.variables ++ (r.answers cs).filterMap registered? := by
  induction cs generalizing r with
  | nil => exact (List.append_nil _).symm
  | cons c cs ih =>
      show ((r.call c).2.after cs).variables = _
      rw [ih, variables_call, answers, List.filterMap_cons, List.append_assoc]
      cases registered? (r.call c).1 <;> rfl

theorem constraints_after (r : Register S C) (cs : List (Call S C)) :
    (r.after cs).constraints = r.constraints ++ cs.flatMap (·.constraints) := by
  induction cs generalizing r with
  | nil => exact (List.append_nil _).symm
  | cons c cs ih =>
      show ((r.call c).2.after cs).constraints = _
      rw [ih, constraints_call, List.flatMap_cons, List.append_assoc]

omit [Scalar S] in
theorem mem_registered {as : List (Answer S)} {v : Variable S} :
    v ∈ as.filterMap registered? ↔ .ok (some v) ∈ as := by
  rw [List.mem_filterMap]
  constructor
  · rintro ⟨a, ha, hv⟩
    cases a with
    | error e => cases hv
    | ok w =>
        obtain rfl : w = some v := hv
        exact ha
  · intro h
    exact ⟨_, h, rfl⟩

/-- What calls on an empty register leave, and what they answered. -/
structure Left (cs : List (Call S C)) (as : List (Answer S)) (r : Register S C) : Prop extends
    InStep r where
  «variables» : r.variables = as.filterMap registered?
  constraints : r.constraints = cs.flatMap (·.constraints)
  draft : r.toDraft = cs.foldl Draft.next {}

/-- One more call. It fails exactly if an earlier one has registered its name, and then it changes nothing.
The draft alone would have answered the same. -/
structure Decided (as : List (Answer S)) (r : Register S C) (c : Call S C) : Prop where
  fails : ∀ e, (r.call c).1 = .error e ↔
    ∃ v w, c.asked? = some v ∧ .ok (some w) ∈ as ∧ w.name = v.name ∧ e = .nameTaken v.name
  answer : ∀ v, (r.call c).1 = .ok v → v = c.asked?
  unchanged : ∀ e, (r.call c).1 = .error e → (r.call c).2 = r
  draft : r.toDraft.call c = (r.call c).1.map fun v => (v, (r.call c).2.toDraft)

/-- The model that an objective makes of what calls have left. A name stands for the variable that was
registered under it. -/
structure Sealed (as : List (Answer S)) (r : Register S C) (m : Model S C) : Prop where
  «variables» : m.variables = r.variables
  constraints : m.constraints = r.constraints
  found : ∀ name v, m.byName? name = some v ↔ .ok (some v) ∈ as ∧ v.name = name
  missing : ∀ name, m.byName? name = none ↔ ∀ v, .ok (some v) ∈ as → v.name ≠ name

variable {cs : List (Call S C)} {as : List (Answer S)}

theorem left (cs : List (Call S C)) : Left cs (answers {} cs) (after {} cs) := by
  have hempty : InStep ({} : Register S C) := ⟨rfl, .nil⟩
  exact { hempty.after cs with
    «variables» := variables_after {} cs
    constraints := constraints_after {} cs
    draft := hempty.draft_after cs }

theorem Left.mem_variables (h : Left cs as r) {v : Variable S} :
    v ∈ r.variables ↔ .ok (some v) ∈ as := by
  rw [h.variables, mem_registered]

theorem Left.decided (h : Left cs as r) (c : Call S C) : Decided as r c where
  fails e := by
    have hmem (v : Variable S) : v.name ∈ r.names ↔ ∃ w, .ok (some w) ∈ as ∧ w.name = v.name := by
      rw [h.mem_names, List.mem_map]
      simp only [h.mem_variables]
    rw [call_eq]
    cases hasked : c.asked? with
    | none => simp
    | some v =>
        dsimp only
        split
        case isTrue hname =>
          obtain ⟨w, hw, hwv⟩ := (hmem v).mp hname
          constructor
          · rintro ⟨⟩
            exact ⟨v, w, rfl, hw, hwv, rfl⟩
          · rintro ⟨_, _, ⟨⟩, -, -, rfl⟩
            rfl
        case isFalse hname =>
          refine iff_of_false nofun ?_
          rintro ⟨_, w, ⟨⟩, hw, hwv, -⟩
          exact hname ((hmem v).mpr ⟨w, hw, hwv⟩)
  answer v := by
    rw [call_eq]
    cases c.asked? with
    | none =>
        rintro ⟨⟩
        rfl
    | some w =>
        dsimp only
        split
        · nofun
        · rintro ⟨⟩
          rfl
  unchanged _ := call_of_error
  draft := h.draft_call c

theorem Left.sealed (h : Left cs as r) (o : Objective S C) : Sealed as r (r.toDraft.complete o) where
  «variables» := rfl
  constraints := rfl
  found name v := by
    rw [← h.mem_variables]
    exact Variable.find?_name_eq_some h.nodup
  missing name := by
    rw [Model.byName?, List.find?_eq_none]
    simp [Draft.complete, ← h.mem_variables]

/-- Calls keep the names in step with the variables, of which no two share one and which stand in the order
of the calls that succeeded. -/
theorem calls_keep_names (cs : List (Call S C)) :
    Left cs (answers {} cs) (after {} cs) ∧
    (∀ c, Decided (answers {} cs) (after {} cs) c) ∧
    ∀ o, Sealed (answers {} cs) (after {} cs) ((after {} cs).complete o) :=
  ⟨left cs, (left cs).decided, (left cs).sealed⟩

end Register

end LinOpt
