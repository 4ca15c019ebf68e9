import LargeNeighborhood.Proofs.Model.Fixing
import Mathlib.Data.List.Infix

/-!
# Nested checkpoints

No operation of a model looks below the checkpoints that were saved since some start, as long as it
does not go back further. So a balanced sequence runs the same on any checkpoints and hands them
back, and between a save and a restore it leaves a trace in the refusals and in the log alone.
-/

namespace LargeNeighborhood.Model

inductive Operation
  | newVar (lower upper : Int32)
  | assign (vars : List VarId) (values : List Int32)
  | remove (var : VarId) (value : Int32)
  | instantiate (var : VarId) (value : Int32)
  | failOn (var : VarId)
  | clearLog
  | save
  | restore
deriving DecidableEq

def perform (m : Model) : Operation → Checked Model
  | .newVar lower upper => return (m.newVar lower upper).1
  | .assign vars values => m.assign vars values
  | .remove var value => m.remove var value
  | .instantiate var value => return (← m.instantiate var value).2
  | .failOn var => return m.failOn var
  | .clearLog => return m.clearLog
  | .save => return m.save
  | .restore => return m.restore.1

def performAll (m : Model) : List Operation → Checked Model
  | [] => return m
  | op :: ops => do performAll (← m.perform op) ops

/-- No start of the sequence takes back more checkpoints than it makes and `depth` others. -/
def Spares (depth : Nat) (ops : List Operation) : Prop :=
  ∀ before ∈ ops.inits, before.count .restore ≤ depth + before.count .save

/-- The sequence takes back as many checkpoints as it makes, and no start of it takes back more. -/
structure Balanced (ops : List Operation) : Prop where
  spares : ∀ before ∈ ops.inits, before.count .restore ≤ before.count .save
  closed : ops.count .restore = ops.count .save

def Operation.depth (before : Nat) : Operation → Nat
  | .save => before + 1
  | .restore => before - 1
  | _ => before

def withCheckpoints (m : Model) (checkpoints : List (Array Domain)) : Model :=
  { m with checkpoints := checkpoints }

def stackedOn (m : Model) (below : List (Array Domain)) : Model :=
  m.withCheckpoints (m.checkpoints ++ below)

variable {m m' : Model} {op : Operation} {ops : List Operation} {depth : Nat}

/-! ## Operations beside the checkpoints -/

theorem assignAll_withCheckpoints (m : Model) (entries : List (VarId × Int32))
    (checkpoints : List (Array Domain)) :
    (m.withCheckpoints checkpoints).assignAll entries =
      (m.assignAll entries).map (·.withCheckpoints checkpoints) := by
  induction entries generalizing m with
  | nil => rfl
  | cons entry entries ih =>
    obtain ⟨var, value⟩ := entry
    change m.contains var value >>= _ = Except.map _ (m.contains var value >>= _)
    cases m.contains var value with
    | error fault => rfl
    | ok possible =>
      rw [Checked.ok_bind, Checked.ok_bind]
      cases possible with
      | false => rfl
      | true => exact ih (m.setDomain var (.singleton value))

theorem instantiate_withCheckpoints (m : Model) (var : VarId) (value : Int32)
    (checkpoints : List (Array Domain)) :
    (m.withCheckpoints checkpoints).instantiate var value =
      (m.instantiate var value).map fun reply =>
        (reply.1, reply.2.withCheckpoints checkpoints) := by
  cases hdomain : m.domain var with
  | error fault =>
    change m.domain var >>= _ = Except.map _ (m.domain var >>= _)
    rw [hdomain]
    rfl
  | ok d =>
    have hsame : (m.withCheckpoints checkpoints).domain var = .ok d := hdomain
    rw [instantiate_eq hsame, instantiate_eq hdomain]
    change Except.ok (if m.failing.contains var || !d.contains value then _ else _) = _
    split <;> rfl

/-- Only saving and restoring look at the checkpoints. -/
theorem perform_withCheckpoints (hsave : op ≠ .save) (hrestore : op ≠ .restore)
    (checkpoints : List (Array Domain)) :
    (m.withCheckpoints checkpoints).perform op =
      (m.perform op).map (·.withCheckpoints checkpoints) := by
  cases op with
  | newVar lower upper => rfl
  | assign vars values =>
    change (if _ then _ else _) = Except.map _ (if _ then _ else _)
    split
    · exact m.assignAll_withCheckpoints _ checkpoints
    · rfl
  | remove var value =>
    change m.domain var >>= _ = Except.map _ (m.domain var >>= _)
    cases m.domain var <;> rfl
  | instantiate var value =>
    rw [perform, perform, instantiate_withCheckpoints]
    cases m.instantiate var value <;> rfl
  | failOn var => rfl
  | clearLog => rfl
  | save => exact absurd rfl hsave
  | restore => exact absurd rfl hrestore

theorem checkpoints_perform (hrun : m.perform op = .ok m') (hsave : op ≠ .save)
    (hrestore : op ≠ .restore) : m'.checkpoints = m.checkpoints := by
  have hsame := perform_withCheckpoints (m := m) hsave hrestore m.checkpoints
  rw [show m.withCheckpoints m.checkpoints = m from rfl, hrun] at hsame
  have hkept : m' = m'.withCheckpoints m.checkpoints := Except.ok.inj hsame
  rw [hkept]
  rfl

/-! ## Operations above checkpoints -/

theorem perform_stackedOn (hneeded : op = .restore → m.checkpoints ≠ [])
    (below : List (Array Domain)) :
    (m.stackedOn below).perform op = (m.perform op).map (·.stackedOn below) := by
  by_cases hsave : op = .save
  · subst hsave
    rfl
  by_cases hrestore : op = .restore
  · subst hrestore
    obtain ⟨domains, checkpoints, failing, log⟩ := m
    cases checkpoints with
    | nil => exact absurd rfl (hneeded rfl)
    | cons saved rest => rfl
  rw [stackedOn, perform_withCheckpoints hsave hrestore]
  cases hrun : m.perform op with
  | error fault => rfl
  | ok m' =>
    rw [← checkpoints_perform hrun hsave hrestore]
    rfl

theorem length_checkpoints_perform (hrun : m.perform op = .ok m') :
    m'.checkpoints.length = op.depth m.checkpoints.length := by
  cases op with
  | save =>
    cases hrun
    rfl
  | restore =>
    cases hrun
    obtain ⟨domains, checkpoints, failing, log⟩ := m
    cases checkpoints <;> rfl
  | _ => exact congrArg List.length (checkpoints_perform hrun nofun nofun)

/-! ## Sequences -/

theorem Spares.head (h : Spares depth (op :: ops)) : op = .restore → 0 < depth := by
  rintro rfl
  have hfirst : 1 ≤ depth := by simpa using h [.restore] (by simp)
  exact hfirst

theorem Spares.tail (h : Spares depth (op :: ops)) : Spares (op.depth depth) ops := by
  intro before hbefore
  have hhead := h.head
  have hlonger := h (op :: before) (by
    rw [List.mem_inits] at hbefore ⊢
    exact (List.prefix_cons_inj op).mpr hbefore)
  cases op <;> simp [Operation.depth] at hhead hlonger ⊢ <;> omega

theorem performAll_stackedOn (h : Spares m.checkpoints.length ops) (below : List (Array Domain)) :
    (m.stackedOn below).performAll ops = (m.performAll ops).map (·.stackedOn below) := by
  induction ops generalizing m with
  | nil => rfl
  | cons op ops ih =>
    have hneeded : op = .restore → m.checkpoints ≠ [] :=
      fun hop => List.ne_nil_of_length_pos (h.head hop)
    rw [performAll, performAll, perform_stackedOn hneeded]
    cases hop : m.perform op with
    | error fault => rfl
    | ok next => exact ih (length_checkpoints_perform hop ▸ h.tail)

theorem length_checkpoints_performAll (h : Spares m.checkpoints.length ops)
    (hrun : m.performAll ops = .ok m') :
    m'.checkpoints.length + ops.count .restore = m.checkpoints.length + ops.count .save := by
  induction ops generalizing m with
  | nil =>
    cases hrun
    rfl
  | cons op ops ih =>
    obtain ⟨next, hop, hrest⟩ := Checked.bind_eq_ok_iff.mp hrun
    have hlength := length_checkpoints_perform hop
    have hlater := ih (hlength ▸ h.tail) hrest
    have hhead := h.head
    cases op <;> simp [Operation.depth] at hhead hlength ⊢ <;> omega

theorem Balanced.performAll_withCheckpoints (h : Balanced ops) (m : Model)
    (checkpoints : List (Array Domain)) :
    (m.withCheckpoints checkpoints).performAll ops =
      ((m.withCheckpoints []).performAll ops).map (·.withCheckpoints checkpoints) := by
  have hspares : Spares (m.withCheckpoints []).checkpoints.length ops :=
    fun before hbefore => (h.spares before hbefore).trans_eq (Nat.zero_add _).symm
  have hstacked := performAll_stackedOn hspares checkpoints
  rw [show (m.withCheckpoints []).stackedOn checkpoints = m.withCheckpoints checkpoints from rfl]
    at hstacked
  rw [hstacked]
  cases hrun : (m.withCheckpoints []).performAll ops with
  | error fault => rfl
  | ok left =>
    have hlength := length_checkpoints_performAll hspares hrun
    have hnone : left.checkpoints = [] := by
      rw [← List.length_eq_zero_iff]
      simp only [withCheckpoints, List.length_nil] at hlength
      have hclosed := h.closed
      omega
    change Except.ok (left.withCheckpoints (left.checkpoints ++ checkpoints)) = _
    rw [hnone]
    rfl

/-- A save, a balanced sequence and a restore end as the sequence alone ends, faults included: with
its refusals and its log, but with the domains and the checkpoints of the start. Without a
checkpoint there is nothing to go back to. -/
theorem checkpoints_nest (h : Balanced ops) :
    (∀ m : Model, (m.save.performAll ops).map restore =
      (m.performAll ops).map fun left =>
        (⟨m.domains, m.checkpoints, left.failing, left.log⟩, true)) ∧
    ∀ m : Model, m.checkpoints = [] → m.restore = (m, false) := by
  constructor
  · intro m
    have hinside := h.performAll_withCheckpoints m (m.domains :: m.checkpoints)
    have halone := h.performAll_withCheckpoints m m.checkpoints
    rw [show m.withCheckpoints (m.domains :: m.checkpoints) = m.save from rfl] at hinside
    rw [show m.withCheckpoints m.checkpoints = m from rfl] at halone
    rw [hinside, halone]
    cases (m.withCheckpoints []).performAll ops <;> rfl
  · intro m hnone
    rw [restore, hnone]

/-- Two brackets inside, one of them in the other, with a variable made, a value removed, a refusal
and a log that is cleared. -/
def nestedBrackets : List Operation :=
  [.newVar 5 9, .instantiate ⟨0⟩ 2, .save, .remove ⟨1⟩ 3, .failOn ⟨1⟩, .instantiate ⟨1⟩ 0, .save,
    .assign [⟨2⟩] [7], .restore, .restore, .clearLog, .instantiate ⟨2⟩ 6]

theorem checkpoints_nest_twice :
    Balanced nestedBrackets ∧
    ((ofBounds 2 0 3).save.performAll nestedBrackets).map restore =
      .ok (⟨(ofBounds 2 0 3).domains, [], [⟨1⟩], #[(⟨2⟩, 6)]⟩, true) ∧
    (ofBounds 2 0 3).restore = (ofBounds 2 0 3, false) := by
  have hbalanced : Balanced nestedBrackets := ⟨by decide, by decide⟩
  obtain ⟨hbracket, hnone⟩ := checkpoints_nest hbalanced
  refine ⟨hbalanced, ?_, hnone _ rfl⟩
  rw [hbracket]
  decide +kernel

end LargeNeighborhood.Model
