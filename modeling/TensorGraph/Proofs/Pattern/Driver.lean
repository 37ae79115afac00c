import TensorGraph.Proofs.Pattern.Pipeline
import TensorGraph.Proofs.Pattern.Weight

/-!
Greedy use of patterns step by step, and why it stops. The steps are the looks that a search takes: at the next op, at
the next pattern, at what it noted before. A call runs through such steps until nothing is left, a pattern fails, or
its budget is used up. With built-in patterns every success makes the graph lighter, and between two successes each op
is visited once, so the number of steps is bounded by the start alone, whatever the budget.
-/
namespace TensorGraph

open TensorGraph.Graph

namespace Greedy

variable {patterns : List Pattern} {s s' : Search}

/-! ## Steps -/

/-- Where a search stands: the op on which patterns are being tried, with its version and the patterns that are left
to try, and the ops that are left to visit. -/
structure Point where
  search : Search
  trying : Option (Op × Nat × List (Pattern × Nat))
  work : List OpId

/-- What a step is: a look without a try, a try that changes nothing, or one that changes the graph. -/
inductive Event where
  | quiet
  | failed
  | applied
deriving DecidableEq

/-- One step of a search. -/
inductive Step (patterns : List Pattern) : Event → Point → Point → Prop
  | gone {s : Search} {id : OpId} {work : List OpId} (h : s.editor.graph.op? id = none) :
      Step patterns .quiet ⟨s, none, id :: work⟩ ⟨s, none, work⟩
  | visit {s : Search} {id : OpId} {work : List OpId} {op : Op} (h : s.editor.graph.op? id = some op) :
      Step patterns .quiet ⟨s, none, id :: work⟩
        ⟨s, some (op, s.editor.version id, Pattern.candidates patterns op), work⟩
  | leave {s : Search} {op : Op} {v : Nat} {work : List OpId} :
      Step patterns .quiet ⟨s, some (op, v, []), work⟩ ⟨s, none, work⟩
  | skip {s : Search} {op : Op} {v i : Nat} {p : Pattern} {rest : List (Pattern × Nat)} {work : List OpId}
      (h : s.hasFailed op.id i v = true) :
      Step patterns .quiet ⟨s, some (op, v, (p, i) :: rest), work⟩ ⟨s, some (op, v, rest), work⟩
  | fail {s : Search} {op : Op} {v i : Nat} {p : Pattern} {rest : List (Pattern × Nat)} {work : List OpId} {r : Editor}
      (h : s.hasFailed op.id i v = false) (hrun : (p.attempt op).run s.editor = (.ok false, r)) :
      Step patterns .failed ⟨s, some (op, v, (p, i) :: rest), work⟩
        ⟨({ s with editor := r } : Search).noteFailure op.id i v, some (op, v, rest), work⟩
  | apply {s : Search} {op : Op} {v i : Nat} {p : Pattern} {rest : List (Pattern × Nat)} {work next : List OpId}
      {r : Editor} (h : s.hasFailed op.id i v = false) (hrun : (p.attempt op).run s.editor = (.ok true, r))
      (horder : r.graph.order = .ok next) :
      Step patterns .applied ⟨s, some (op, v, (p, i) :: rest), work⟩
        ⟨({ s with editor := r } : Search).noteSuccess p op, none, next⟩

/-- Steps one after the other. -/
inductive Run (patterns : List Pattern) : List Event → Point → Point → Prop
  | stop (c : Point) : Run patterns [] c c
  | step {e : Event} {events : List Event} {c c₁ c' : Point} (hfirst : Step patterns e c c₁)
      (hrest : Run patterns events c₁ c') : Run patterns (e :: events) c c'

theorem Run.trans {events events' : List Event} {c c₁ c' : Point} (h : Run patterns events c c₁)
    (h' : Run patterns events' c₁ c') : Run patterns (events ++ events') c c' := by
  induction h with
  | stop => exact h'
  | step hfirst _ ih => exact .step hfirst (ih h')

/-- How a search breaks off: a try fails, or the ops of a changed graph have no order. -/
inductive Breaks : Point → Failure → Search → Prop
  | attempt {s : Search} {op : Op} {v i : Nat} {p : Pattern} {rest : List (Pattern × Nat)} {work : List OpId}
      {r : Editor} {f : Failure} (h : s.hasFailed op.id i v = false) (hrun : (p.attempt op).run s.editor = (.error f, r)) :
      Breaks ⟨s, some (op, v, (p, i) :: rest), work⟩ f { s with editor := r }
  | order {s : Search} {op : Op} {v i : Nat} {p : Pattern} {rest : List (Pattern × Nat)} {work : List OpId}
      {r : Editor} {f : Failure} (h : s.hasFailed op.id i v = false) (hrun : (p.attempt op).run s.editor = (.ok true, r))
      (horder : r.graph.order = .error f) :
      Breaks ⟨s, some (op, v, (p, i) :: rest), work⟩ f (({ s with editor := r } : Search).noteSuccess p op)

/-! ## Calls run through steps -/

/-- How a sweep over the ops ends. -/
inductive Turn : Point → Outcome (Option (Pattern × Op)) × Search → Prop
  | through (s : Search) : Turn ⟨s, none, []⟩ (.ok none, s)
  | success {s : Search} {op : Op} {v i : Nat} {p : Pattern} {rest : List (Pattern × Nat)} {work : List OpId}
      {r : Editor} (h : s.hasFailed op.id i v = false) (hrun : (p.attempt op).run s.editor = (.ok true, r)) :
      Turn ⟨s, some (op, v, (p, i) :: rest), work⟩ (.ok (some (p, op)), { s with editor := r })
  | failure {s : Search} {op : Op} {v i : Nat} {p : Pattern} {rest : List (Pattern × Nat)} {work : List OpId}
      {r : Editor} {f : Failure} (h : s.hasFailed op.id i v = false) (hrun : (p.attempt op).run s.editor = (.error f, r)) :
      Turn ⟨s, some (op, v, (p, i) :: rest), work⟩ (.error f, { s with editor := r })

/-- A call with result `o` runs through steps without a success from the point `c` to the end of a sweep. -/
def Sweeps (patterns : List Pattern) (c : Point) (o : Outcome (Option (Pattern × Op)) × Search) : Prop :=
  ∃ events c', .applied ∉ events ∧ Run patterns events c c' ∧ Turn c' o

theorem Sweeps.step {e : Event} {c c₁ : Point} {o : Outcome (Option (Pattern × Op)) × Search}
    (hstep : Step patterns e c c₁) (he : e ≠ .applied) (h : Sweeps patterns c₁ o) : Sweeps patterns c o := by
  obtain ⟨events, c', hnone, hrun, hturn⟩ := h
  refine ⟨e :: events, c', fun hmem => ?_, .step hstep hrun, hturn⟩
  rcases List.mem_cons.1 hmem with heq | hmem
  · exact he heq.symm
  · exact hnone hmem

/-- The rest of a sweep, from an op on which patterns are being tried. -/
def resume (patterns : List Pattern) (op : Op) (v : Nat) (l : List (Pattern × Nat)) (work : List OpId) :
    SearchM (Option (Pattern × Op)) := do
  match ← tryPatterns op v l with
  | some p => return some (p, op)
  | none => sweep patterns work

theorem sweeps_resume {op : Op} {v : Nat} {work : List OpId}
    (hwork : ∀ s, Sweeps patterns ⟨s, none, work⟩ ((sweep patterns work).run s)) :
    ∀ (l : List (Pattern × Nat)) (s : Search),
      Sweeps patterns ⟨s, some (op, v, l), work⟩ ((resume patterns op v l work).run s)
  | [], s => (hwork s).step .leave (fun h => by cases h)
  | (p, i) :: l, s => by
    rw [resume, tryPatterns, bind_assoc, Stateful.run_bind, Stateful.run_get]
    simp only
    cases hfailed : s.hasFailed op.id i v with
    | true => exact (sweeps_resume hwork l s).step (.skip hfailed) (fun h => by cases h)
    | false =>
      rw [if_neg Bool.false_ne_true, bind_assoc, Stateful.run_bind, onEditor, Stateful.run_focus]
      rcases hrun : (p.attempt op).run s.editor with ⟨f | applied, r⟩
      · exact ⟨[], _, List.not_mem_nil, .stop _, .failure hfailed hrun⟩
      · cases applied with
        | true => exact ⟨[], _, List.not_mem_nil, .stop _, .success hfailed hrun⟩
        | false => exact (sweeps_resume hwork l _).step (.fail hfailed hrun) (fun h => by cases h)

theorem sweeps_sweep : ∀ (work : List OpId) (s : Search),
    Sweeps patterns ⟨s, none, work⟩ ((sweep patterns work).run s)
  | [], s => ⟨[], _, List.not_mem_nil, .stop _, .through s⟩
  | id :: work, s => by
    rw [sweep, Stateful.run_bind, Stateful.run_get]
    simp only
    cases ho : s.editor.graph.op? id with
    | none => exact (sweeps_sweep work s).step (.gone ho) nofun
    | some op => exact (sweeps_resume (sweeps_sweep work) _ s).step (.visit ho) nofun

/-- A call runs through steps until nothing is left, the search breaks off, or the budget is used up. It returns the
number of successes among its steps. -/
theorem exhaustFrom_run : ∀ (budget : Nat) (work : List OpId) (s : Search), ∃ events c,
    Run patterns events ⟨s, none, work⟩ c ∧
      (c.trying = none ∧ c.work = [] ∧
          (exhaustFrom patterns budget work).run s = (.ok (events.count .applied), c.search) ∨
        (∃ f s', Breaks c f s' ∧ (exhaustFrom patterns budget work).run s = (.error f, s')) ∨
        events.count .applied = budget ∧ (exhaustFrom patterns budget work).run s = (.ok budget, c.search))
  | 0, work, s => ⟨[], _, .stop _, .inr (.inr ⟨rfl, rfl⟩)⟩
  | budget + 1, work, s => by
    obtain ⟨events, c, hnone, hrun, hturn⟩ : Sweeps patterns _ _ := sweeps_sweep work s
    have hcount : events.count .applied = 0 := List.count_eq_zero.2 hnone
    rw [exhaustFrom, Stateful.run_bind]
    generalize (sweep patterns work).run s = o at hturn
    cases hturn with
    | through s' => exact ⟨events, _, hrun, .inl ⟨rfl, rfl, by rw [hcount]; rfl⟩⟩
    | failure h hattempt => exact ⟨events, _, hrun, .inr (.inl ⟨_, _, .attempt h hattempt, rfl⟩)⟩
    | @success s₁ op v i p rest work' r h hattempt =>
      rcases horder : r.graph.order with f | next
      · refine ⟨events, _, hrun, .inr (.inl ⟨_, _, .order h hattempt horder, ?_⟩)⟩
        have hlist : workList.run (({ s₁ with editor := r } : Search).noteSuccess p op) =
            (.error f, ({ s₁ with editor := r } : Search).noteSuccess p op) := Prod.ext horder rfl
        simp only [Stateful.run_bind, Stateful.run_modify, hlist]
      · obtain ⟨events', c', hrun', hend⟩ :=
          exhaustFrom_run budget next (({ s₁ with editor := r } : Search).noteSuccess p op)
        have hcount' : (events ++ .applied :: events').count .applied = events'.count .applied + 1 := by
          rw [List.count_append, hcount, Nat.zero_add, List.count_cons_self]
        refine ⟨_, c', hrun.trans (.step (.apply h hattempt horder) hrun'), ?_⟩
        have hlist : workList.run (({ s₁ with editor := r } : Search).noteSuccess p op) =
            (.ok next, ({ s₁ with editor := r } : Search).noteSuccess p op) := Prod.ext horder rfl
        rw [hcount']
        simp only [Stateful.run_bind, Stateful.run_modify, hlist]
        rcases hend with ⟨htrying, hleft, hend⟩ | ⟨f, s', hbreaks, hend⟩ | ⟨hbudget, hend⟩
        · exact .inl ⟨htrying, hleft, by rw [hend]; rfl⟩
        · exact .inr (.inl ⟨f, s', hbreaks, by rw [hend]⟩)
        · exact .inr (.inr ⟨by rw [hbudget], by rw [hend]; rfl⟩)

theorem run_exhaust {b : Build} {work : List OpId} (hwork : b.graph.order = .ok work) (budget : Nat) :
    (exhaust patterns budget).run b = (((exhaustFrom patterns budget work).run (.start b)).1,
      ((exhaustFrom patterns budget work).run (.start b)).2.result b) := by
  have hlist : workList.run (Search.start b) = (.ok work, Search.start b) := Prod.ext hwork rfl
  rw [exhaust, Stateful.run_focus, Stateful.run_bind, hlist]

/-! ## Every run is short -/

namespace Point

/-- The graph at a point of a search. -/
def graph (c : Point) : Graph := c.search.editor.graph

/-- How many steps without a success may still come, at most: a look at each pattern that is left to try, and at each
op that is left to visit, with all patterns on it. -/
def left (patterns : List Pattern) (c : Point) : Nat :=
  (match c.trying with
    | none => 0
    | some (_, _, rest) => rest.length + 1) + c.work.length * (patterns.length + 2)

/-- What holds at every point of a search that started on a well-formed graph. -/
structure Valid (patterns : List Pattern) (c : Point) : Prop where
  wellFormed : c.graph.WellFormed
  trying : ∀ {op v rest}, c.trying = some (op, v, rest) →
    c.graph.op? op.id = some op ∧ rest <:+ Pattern.candidates patterns op
  work : c.work.length ≤ c.graph.ops.size

theorem length_candidates_le (patterns : List Pattern) (op : Op) :
    (Pattern.candidates patterns op).length ≤ patterns.length :=
  (List.length_filter_le ..).trans (List.length_zipIdx ..).le

theorem Valid.left_le {c : Point} (h : c.Valid patterns) :
    c.left patterns ≤ (c.graph.weight + 1) * (patterns.length + 2) := by
  have hwork : c.work.length * (patterns.length + 2) ≤ c.graph.weight * (patterns.length + 2) :=
    Nat.mul_le_mul_right _ (h.work.trans c.graph.size_le_weight)
  rw [Nat.add_mul, Nat.one_mul, Nat.add_comm, left]
  refine Nat.add_le_add ?_ hwork
  split
  · exact Nat.zero_le _
  · rename_i op v rest htrying
    have hrest := (h.trying htrying).2.length_le.trans (length_candidates_le patterns op)
    omega

theorem valid_seeded {s : Search} {work : List OpId} (h : s.editor.graph.WellFormed)
    (hwork : s.editor.graph.order = .ok work) : Valid patterns ⟨s, none, work⟩ :=
  ⟨h, nofun, (order_complete h.linked hwork).schedule.length_le⟩

end Point

section Stopping

variable {backend : Option Backend} {e : Event} {events : List Event} {c c' : Point}
  (hp : ∀ p ∈ patterns, ∃ k : BuiltIn, k.pattern? backend = some p)

include hp

/-- A built-in pattern that fails leaves everything as it is. -/
theorem unchanged_of_failed {op : Op} {q : Pattern × Nat} {r r' : Editor} (hq : q ∈ Pattern.candidates patterns op)
    (hrun : (q.1.attempt op).run r = (.ok false, r')) : r' = r := by
  obtain ⟨hmem, happ⟩ := mem_candidates hq
  obtain ⟨k, hk⟩ := hp q.1 hmem
  have hsame := BuiltIn.looks hk happ hrun (.refl op r.graph)
  exact (Prod.mk.inj (hrun.symm.trans hsame)).2

/-- A step keeps what holds of a point. A success makes the graph lighter, and any other step leaves it and brings the
search nearer to the end of the sweep. -/
theorem Step.valid (hstep : Step patterns e c c') (h : c.Valid patterns) : c'.Valid patterns ∧
    (e = .applied ∧ c'.graph.weight < c.graph.weight ∨
      e ≠ .applied ∧ c'.graph = c.graph ∧ c'.left patterns < c.left patterns) := by
  obtain ⟨hwell, htrying, hwork⟩ := h
  cases hstep with
  | gone =>
    refine ⟨⟨hwell, nofun, Nat.le_of_succ_le hwork⟩, .inr ⟨nofun, rfl, ?_⟩⟩
    simp only [Point.left, List.length_cons, Nat.add_mul, Nat.one_mul]
    omega
  | @visit s id work op ho =>
    refine ⟨⟨hwell, fun heq => ?_, Nat.le_of_succ_le hwork⟩, .inr ⟨nofun, rfl, ?_⟩⟩
    · cases heq
      exact ⟨(hwell.linked.opId ho).symm ▸ ho, List.suffix_refl _⟩
    · have hlength := Point.length_candidates_le patterns op
      simp only [Point.left, List.length_cons, Nat.add_mul, Nat.one_mul]
      omega
  | leave =>
    refine ⟨⟨hwell, nofun, hwork⟩, .inr ⟨nofun, rfl, ?_⟩⟩
    simp only [Point.left, List.length_nil]
    omega
  | skip =>
    obtain ⟨ho, hsuffix⟩ := htrying rfl
    refine ⟨⟨hwell, fun heq => ?_, hwork⟩, .inr ⟨nofun, rfl, ?_⟩⟩
    · cases heq
      exact ⟨ho, (List.suffix_cons ..).trans hsuffix⟩
    · simp only [Point.left, List.length_cons]
      omega
  | fail _ hrun =>
    obtain ⟨ho, hsuffix⟩ := htrying rfl
    cases unchanged_of_failed hp (hsuffix.subset (List.mem_cons_self ..)) hrun
    refine ⟨⟨hwell, fun heq => ?_, hwork⟩, .inr ⟨nofun, rfl, ?_⟩⟩
    · cases heq
      exact ⟨ho, (List.suffix_cons ..).trans hsuffix⟩
    · simp only [Point.left, List.length_cons]
      omega
  | apply _ hrun horder =>
    obtain ⟨ho, hsuffix⟩ := htrying rfl
    obtain ⟨hmem, happ⟩ := mem_candidates (hsuffix.subset (List.mem_cons_self ..))
    obtain ⟨k, hk⟩ := hp _ hmem
    obtain ⟨hwell', hweight⟩ := BuiltIn.weight_lt hk hwell ho happ hrun
    exact ⟨Point.valid_seeded hwell' horder, .inl ⟨rfl, hweight⟩⟩

/-- Each success costs weight. -/
theorem Run.weight_le (hrun : Run patterns events c c') (h : c.Valid patterns) :
    c'.Valid patterns ∧ events.count .applied + c'.graph.weight ≤ c.graph.weight := by
  induction hrun with
  | stop => exact ⟨h, by simp⟩
  | @step e events c c₁ c' hfirst _ ih =>
    obtain ⟨h₁, hcase⟩ := hfirst.valid hp h
    obtain ⟨h', hrest⟩ := ih h₁
    refine ⟨h', ?_⟩
    rcases hcase with ⟨rfl, hlt⟩ | ⟨hne, hgraph, -⟩
    · rw [List.count_cons_self]
      omega
    · rw [List.count_cons_of_ne hne, ← hgraph]
      exact hrest

/-- Without a success the steps that are left get fewer. -/
theorem Run.length_le_left (hrun : Run patterns events c c') (h : c.Valid patterns) (hnone : .applied ∉ events) :
    events.length + c'.left patterns ≤ c.left patterns := by
  induction hrun with
  | stop => simp
  | @step e events c c₁ c' hfirst _ ih =>
    rw [List.mem_cons, not_or] at hnone
    obtain ⟨h₁, hcase⟩ := hfirst.valid hp h
    obtain ⟨-, -, hleft⟩ := hcase.resolve_left fun hc => hnone.1 hc.1.symm
    have hrest := ih h₁ hnone.2
    rw [List.length_cons]
    omega

/-- A run is no longer than a sweep for every unit of weight, and the rest of the present sweep. -/
theorem Run.length_le {w : Nat} (hrun : Run patterns events c c') (h : c.Valid patterns) (hw : c.graph.weight ≤ w) :
    events.length ≤ c.graph.weight * ((w + 1) * (patterns.length + 2)) + c.left patterns := by
  induction hrun with
  | stop => exact Nat.zero_le _
  | @step e events c c₁ c' hfirst _ ih =>
    obtain ⟨h₁, hcase⟩ := hfirst.valid hp h
    rw [List.length_cons]
    rcases hcase with ⟨-, hlt⟩ | ⟨-, hgraph, hleft⟩
    · have hrest := ih h₁ (hlt.le.trans hw)
      -- the next sweep is shorter than what the lost weight allows for
      have hsweep : c₁.left patterns + 1 ≤ (w + 1) * (patterns.length + 2) := by
        have hle := h₁.left_le.trans (Nat.mul_le_mul_right (patterns.length + 2) (hlt.trans_le hw))
        rw [Nat.add_mul, Nat.one_mul]
        omega
      have hspent := Nat.mul_le_mul_right ((w + 1) * (patterns.length + 2)) hlt
      rw [Nat.succ_mul] at hspent
      omega
    · have hrest := ih h₁ (hgraph ▸ hw)
      rw [hgraph] at hrest
      omega

/-- Greedy use of built-in patterns stops by itself. The weight of the graph is at most seven times the number of its
ops, every success makes it smaller, and between two successes there are only so many steps. So all runs are short, and
a call whose budget is above the weight of the graph ends because nothing is left to try, or because something fails,
never because the budget is used up. -/
theorem exhaust_stops {b : Build} (h : b.graph.WellFormed) (ha : b.graph.Acyclic) :
    (∀ g : Graph, g.weight ≤ 7 * g.ops.size) ∧
    (∀ p ∈ patterns, ∀ op r r', r.graph.WellFormed → r.graph.op? op.id = some op → p.applies op = true →
      (p.attempt op).run r = (.ok true, r') → r'.graph.WellFormed ∧ r'.graph.weight < r.graph.weight) ∧
    ∃ work, b.graph.order = .ok work ∧
      (∀ events c, Run patterns events ⟨.start b, none, work⟩ c →
        events.count .applied + c.graph.weight ≤ b.graph.weight ∧
        events.length ≤ (b.graph.weight + 1) ^ 2 * (patterns.length + 2) ∧
        ∀ events' c', Run patterns events' c c' → .applied ∉ events' →
          events'.length ≤ (c.graph.weight + 1) * (patterns.length + 2)) ∧
      ∀ budget, b.graph.weight < budget → ∃ events c, Run patterns events ⟨.start b, none, work⟩ c ∧
        (c.trying = none ∧ c.work = [] ∧
            (exhaust patterns budget).run b = (.ok (events.count .applied), c.search.result b) ∨
          ∃ f s', Breaks c f s' ∧ (exhaust patterns budget).run b = (.error f, s'.result b)) := by
  obtain ⟨work, hwork⟩ := ha.order_ok h.linked
  have hvalid : Point.Valid patterns ⟨.start b, none, work⟩ := Point.valid_seeded h hwork
  refine ⟨weight_le, fun p hmem op r r' hwell ho happ hrun => ?_, work, hwork, fun events c hrun => ?_,
    fun budget hbudget => ?_⟩
  · obtain ⟨k, hk⟩ := hp p hmem
    exact BuiltIn.weight_lt hk hwell ho happ hrun
  · obtain ⟨hc, hcount⟩ := hrun.weight_le hp hvalid
    refine ⟨hcount, ?_, fun events' c' hrun' hnone => ?_⟩
    · have hlength := hrun.length_le hp hvalid (Nat.le_refl b.graph.weight)
      have hleft := hvalid.left_le
      have hsum := Nat.add_le_add_left hleft (b.graph.weight * ((b.graph.weight + 1) * (patterns.length + 2)))
      rw [pow_two, Nat.mul_assoc, Nat.add_mul b.graph.weight 1, Nat.one_mul]
      exact hlength.trans hsum
    · have hlength := hrun'.length_le_left hp hc hnone
      exact (Nat.le_of_add_right_le hlength).trans hc.left_le
  · obtain ⟨events, c, hrun, hend⟩ := @exhaustFrom_run patterns budget work (.start b)
    refine ⟨events, c, hrun, ?_⟩
    rw [run_exhaust hwork]
    rcases hend with ⟨htrying, hleft, hend⟩ | ⟨f, s', hbreaks, hend⟩ | ⟨hcount, -⟩
    · exact .inl ⟨htrying, hleft, by rw [hend]⟩
    · exact .inr ⟨f, s', hbreaks, by rw [hend]⟩
    · have hle := (hrun.weight_le hp hvalid).2
      change _ + _ ≤ b.graph.weight at hle
      omega

end Stopping

/-! ### A quotient -/

/-- The gradient for a divisor of the shape of the quotient, which is to be kept. -/
def quotient : Graph :=
  ([.addTensor "g" ⟨.float, [2]⟩ .stream none, .addTensor "a" ⟨.float, [2]⟩ .stream none,
    .addTensor "b" ⟨.float, [2]⟩ .stream none, .addOp (.operandGrad .divRight [2]) ["g", "a", "b"] ["d"] .backward,
    .addOp (.reshape [2]) ["d"] ["y"] .backward, .keep "y"] : List Edit).foldl (fun g e => (e.call.run g).2) .empty

theorem quotient_wellFormed : quotient.WellFormed := by
  have h : Edited Graph.empty quotient :=
    .call _ (.call _ (.call _ (.call _ (.call _ (.call _ .start trivial) trivial) trivial) trivial) trivial) trivial
  exact (h.sound .empty).wellFormed

theorem quotient_acyclic : quotient.Acyclic :=
  (order_complete quotient_wellFormed.linked (by decide +kernel : quotient.order = .ok [0, 1])).acyclic

/-- All built-in patterns that need no backend. -/
def plainPatterns : List Pattern := BuiltIn.all.filterMap (BuiltIn.pattern? none)

theorem builtIn_of_plain : ∀ p ∈ plainPatterns, ∃ k : BuiltIn, k.pattern? none = some p := fun _ hp =>
  (List.mem_filterMap.1 hp).imp fun _ h => h.2

/-- The gradient is spelled out in five ops, two ops become identities, and one of them is dropped. -/
theorem exhaust_stops_quotient : quotient.weight = 9 ∧ ∃ events c,
    Run plainPatterns events ⟨.start ⟨quotient, []⟩, none, [0, 1]⟩ c ∧ c.trying = none ∧ c.work = [] ∧
      events.count .applied = 4 ∧ (exhaust plainPatterns 10).run ⟨quotient, []⟩ = (.ok 4, c.search.result ⟨quotient, []⟩) := by
  have hweight : quotient.weight = 9 := by decide +kernel
  have hcount : ((exhaust plainPatterns 10).run ⟨quotient, []⟩).1 = .ok 4 := by decide +kernel
  obtain ⟨-, -, work, hwork, -, hcall⟩ :=
    exhaust_stops builtIn_of_plain (b := ⟨quotient, []⟩) quotient_wellFormed quotient_acyclic
  cases hwork.symm.trans (by decide +kernel : quotient.order = .ok [0, 1])
  obtain ⟨events, c, hrun, ⟨htrying, hleft, hend⟩ | ⟨f, s', -, hend⟩⟩ := hcall 10 (by decide +kernel)
  · rw [hend] at hcount
    have hfour : events.count .applied = 4 := Except.ok.inj hcount
    exact ⟨hweight, events, c, hrun, htrying, hleft, hfour, by rw [hend, hfour]⟩
  · rw [hend] at hcount
    cases hcount

end Greedy

end TensorGraph
