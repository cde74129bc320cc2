import Mathlib
import StyleSplit.Routing

/-! A stack machine for delimiters that knows only the names of blocks, and which
block it finds open at each rule. -/

namespace StyleSplit

def Rule.commentClass? (rule : Rule) : Option CommentClass :=
  rule.comment?.map CommentClass.ofBody

/-- Whether a rule belongs to the output: it is no delimiter and no old pragma. -/
def Rule.isContent (rule : Rule) : Bool :=
  match rule.commentClass? with
  | none | some .content => true
  | some (.opening _) | some (.closing _) | some .stalePragma => false

theorem Rule.isContent_congr {first second : Rule} (h : first.comment? = second.comment?) :
    first.isContent = second.isContent := by
  rw [isContent, isContent, commentClass?, commentClass?, h]

def Rule.isPassive (rule : Rule) : Bool :=
  match rule.commentClass? with
  | some (.opening _) | some (.closing _) => false
  | _ => true

theorem Rule.isPassive_of_isContent {rule : Rule} (h : rule.isContent = true) :
    rule.isPassive = true := by
  unfold isContent at h
  unfold isPassive
  split at h <;> simp_all

def Rule.openingName? (rule : Rule) : Option String :=
  match rule.commentClass? with
  | some (.opening name) => some name
  | _ => none

structure Nesting.Level where
  id : Nat
  name : String
  openedAt : Span

/-- The names of the blocks made so far, and the open ones, the innermost first.
Blocks are numbered from one as they are made. Below them all is the block of
the document, which is number zero and never leaves. -/
structure Nesting where
  names : List String := []
  stack : List Nesting.Level := []

namespace Nesting

def top (nesting : Nesting) : Nat :=
  nesting.stack.head?.elim 0 (·.id)

/-- Pushes a block: an earlier one of that name when blocks are reopened, or else
a new one. -/
def opened (nesting : Nesting) (policy : ReopenPolicy) (name : String) (openedAt : Span) :
    Nesting :=
  match policy, nesting.names.idxOf? name with
  | .append, some index =>
      { nesting with stack := ⟨index + 1, name, openedAt⟩ :: nesting.stack }
  | _, _ =>
      ⟨nesting.names ++ [name],
        ⟨nesting.names.length + 1, name, openedAt⟩ :: nesting.stack⟩

def closed (nesting : Nesting) (name : String) : Nesting :=
  match nesting.stack with
  | [] => nesting
  | level :: stack => if level.name = name then { nesting with stack } else nesting

def step (policy : ReopenPolicy) (nesting : Nesting) (rule : Rule) : Nesting :=
  match rule.commentClass? with
  | some (.opening name) => nesting.opened policy name rule.span
  | some (.closing name) => nesting.closed name
  | _ => nesting

def run (policy : ReopenPolicy) (nesting : Nesting) (rules : List Rule) : Nesting :=
  rules.foldl (step policy) nesting

/-- The content among the rules, each with the number of the block that is open
where it stands. -/
def route (policy : ReopenPolicy) : Nesting → List Rule → List (Nat × Rule)
  | _, [] => []
  | nesting, rule :: rules =>
      let following := route policy (nesting.step policy rule) rules
      if rule.isContent then (nesting.top, rule) :: following else following

def routedTo (policy : ReopenPolicy) (rules : List Rule) (id : Nat) : List Rule :=
  ((route policy {} rules).filter (·.1 == id)).map (·.2)

theorem step_of_isPassive (policy : ReopenPolicy) (nesting : Nesting) {rule : Rule}
    (h : rule.isPassive = true) : nesting.step policy rule = nesting := by
  unfold Rule.isPassive at h
  unfold step
  split at h
  · cases h
  · cases h
  · rfl

theorem map_snd_route (policy : ReopenPolicy) (nesting : Nesting) (rules : List Rule) :
    (route policy nesting rules).map (·.2) = rules.filter Rule.isContent := by
  induction rules generalizing nesting with
  | nil => rfl
  | cons rule rules ih =>
      rw [route, List.filter_cons]
      split <;> simp [ih]

theorem run_of_isPassive (policy : ReopenPolicy) (nesting : Nesting) {rules : List Rule}
    (h : ∀ rule ∈ rules, rule.isPassive = true) : nesting.run policy rules = nesting := by
  induction rules with
  | nil => rfl
  | cons rule rules ih =>
      obtain ⟨hrule, hrules⟩ := List.forall_mem_cons.mp h
      rw [run, List.foldl_cons, step_of_isPassive policy nesting hrule]
      exact ih hrules

theorem routedTo_of_isPassive (policy : ReopenPolicy) {rules : List Rule}
    (h : ∀ rule ∈ rules, rule.isPassive = true) :
    routedTo policy rules 0 = rules.filter Rule.isContent := by
  have hroute : route policy {} rules = (rules.filter Rule.isContent).map (0, ·) := by
    induction rules with
    | nil => rfl
    | cons rule rules ih =>
        obtain ⟨hrule, hrules⟩ := List.forall_mem_cons.mp h
        rw [route, step_of_isPassive policy {} hrule, ih hrules, List.filter_cons]
        split <;> rfl
  have hzero : ∀ entry ∈ (rules.filter Rule.isContent).map ((0 : Nat), ·),
      (entry.1 == 0) = true := by
    intro entry hentry
    obtain ⟨rule, -, rfl⟩ := List.mem_map.mp hentry
    rfl
  rw [routedTo, hroute, List.filter_eq_self.mpr hzero, List.map_map]
  exact List.map_id _

theorem isContent_of_mem_routedTo {policy : ReopenPolicy} {rules : List Rule} {id : Nat}
    {rule : Rule} (hrule : rule ∈ routedTo policy rules id) : rule.isContent = true := by
  have hroute : rule ∈ (route policy {} rules).map (·.2) :=
    (List.filter_sublist.map _).subset hrule
  rw [map_snd_route] at hroute
  exact (List.mem_filter.mp hroute).2

theorem routedTo_sublist (policy : ReopenPolicy) (rules : List Rule) (id : Nat) :
    (routedTo policy rules id).Sublist rules := by
  have hroute : ((route policy {} rules).map (·.2)).Sublist rules := by
    rw [map_snd_route]
    exact List.filter_sublist
  exact (List.filter_sublist.map _).trans hroute

@[simp] theorem names_closed (nesting : Nesting) (name : String) :
    (nesting.closed name).names = nesting.names := by
  unfold closed
  split
  · rfl
  · split <;> rfl

theorem names_opened_append (nesting : Nesting) (name : String) (openedAt : Span) :
    (nesting.opened .append name openedAt).names =
      if name ∈ nesting.names then nesting.names else nesting.names ++ [name] := by
  unfold opened
  cases hindex : nesting.names.idxOf? name with
  | some index =>
      have hmem : name ∈ nesting.names := by
        rw [← List.isSome_idxOf?, hindex]
        rfl
      rw [if_pos hmem]
  | none => rw [if_neg (List.idxOf?_eq_none_iff.mp hindex)]

@[simp] theorem names_opened_separate (nesting : Nesting) (name : String)
    (openedAt : Span) :
    (nesting.opened .separate name openedAt).names = nesting.names ++ [name] := rfl

theorem names_step (policy : ReopenPolicy) (nesting : Nesting) (rule : Rule) :
    (nesting.step policy rule).names =
      match rule.openingName? with
      | some name => (nesting.opened policy name rule.span).names
      | none => nesting.names := by
  unfold step Rule.openingName?
  cases rule.commentClass? with
  | none => rfl
  | some commentClass => cases commentClass <;> simp

theorem length_names_le_step (policy : ReopenPolicy) (nesting : Nesting) (rule : Rule) :
    nesting.names.length ≤ (nesting.step policy rule).names.length := by
  rw [names_step]
  cases rule.openingName? with
  | none => exact Nat.le_refl _
  | some name =>
      cases policy with
      | append =>
          dsimp only
          rw [names_opened_append]
          split <;> simp
      | separate => simp

theorem eq_of_mem_route_singleton {policy : ReopenPolicy} (nesting : Nesting) {rule : Rule}
    {entry : Nat × Rule} (hentry : entry ∈ route policy nesting [rule]) :
    entry.1 = nesting.top := by
  rw [route] at hentry
  split at hentry
  · rw [List.mem_singleton.mp hentry]
  · simp [route] at hentry

theorem route_cons (policy : ReopenPolicy) (nesting : Nesting) (rule : Rule)
    (rules : List Rule) :
    route policy nesting (rule :: rules) =
      route policy nesting [rule] ++ route policy (nesting.step policy rule) rules := by
  rw [route, route]
  split <;> rfl

theorem run_cons (policy : ReopenPolicy) (nesting : Nesting) (rule : Rule)
    (rules : List Rule) :
    nesting.run policy (rule :: rules) = (nesting.step policy rule).run policy rules := rfl

/-- Reopening makes one block for each name that opening delimiters give, in the
order in which they first give it. -/
theorem names_run_append (nesting : Nesting) (rules : List Rule) :
    (nesting.run .append rules).names =
      nesting.names ++
        ((rules.filterMap Rule.openingName?).filter (· ∉ nesting.names)).eraseDups := by
  induction rules generalizing nesting with
  | nil => simp [run]
  | cons rule rules ih =>
      have hstep := names_step .append nesting rule
      rw [run_cons, ih]
      cases hname : rule.openingName? with
      | none =>
          rw [hname] at hstep
          simp [hname, hstep]
      | some name =>
          rw [hname] at hstep
          dsimp only at hstep
          rw [names_opened_append] at hstep
          by_cases hmem : name ∈ nesting.names
          · simp [hname, hstep, hmem]
          · simp [hname, hstep, hmem, List.eraseDups_cons, List.filter_filter, and_comm]
            rfl

theorem names_run_separate (nesting : Nesting) (rules : List Rule) :
    (nesting.run .separate rules).names =
      nesting.names ++ rules.filterMap Rule.openingName? := by
  induction rules generalizing nesting with
  | nil => simp [run]
  | cons rule rules ih =>
      rw [run_cons, ih, names_step]
      cases hname : rule.openingName? <;> simp [hname]

def created (policy : ReopenPolicy) (rules : List Rule) : List String :=
  match policy with
  | .append => (rules.filterMap Rule.openingName?).eraseDups
  | .separate => rules.filterMap Rule.openingName?

theorem names_run (policy : ReopenPolicy) (rules : List Rule) :
    (run policy {} rules).names = created policy rules := by
  cases policy with
  | append => simp [names_run_append, created]
  | separate => simp [names_run_separate, created]

end Nesting

end StyleSplit
