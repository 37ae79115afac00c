import TensorGraph.Proofs.Graph.InPlace
import TensorGraph.Proofs.Pattern.Fixpoint

/-!
Pipelines of built-in patterns are idempotent, and the limit of their rounds does not matter. Greedy use leaves a graph
on which no pattern applies, the removal of dead ops leaves one without dead ops and orphans, and neither is undone by
the other or by marks: on such a graph all later rounds, and all later runs, have nothing to do.
-/
namespace TensorGraph

open TensorGraph.Graph

variable {patterns : List Pattern} {backend : Option Backend} {g g' : Graph} {op : Op} {k : BuiltIn} {p : Pattern}

/-! ## Calls whatever has been reported -/

namespace BuildM

variable {α β : Type}

/-- A call takes a graph to another, with a result, whatever has been reported before. -/
def Takes (x : BuildM α) (g : Graph) (a : α) (g' : Graph) : Prop := ∀ log, ∃ log', x.run ⟨g, log⟩ = (.ok a, ⟨g', log'⟩)

namespace Takes

variable {x : BuildM α} {f : α → BuildM β} {a : α} {c : β} {g₁ : Graph}

theorem pure (a : α) (g : Graph) : Takes (pure a) g a g := fun log => ⟨log, rfl⟩

theorem bind (hx : Takes x g a g₁) (hf : Takes (f a) g₁ c g') : Takes (x >>= f) g c g' := by
  intro log
  obtain ⟨log₁, h₁⟩ := hx log
  obtain ⟨log', h'⟩ := hf log₁
  exact ⟨log', Stateful.run_bind_ok.2 ⟨a, ⟨g₁, log₁⟩, h₁, h'⟩⟩

theorem onGraph {x : GraphM α} (h : x.run g = (.ok a, g')) : Takes (BuildM.onGraph x) g a g' := by
  intro log
  refine ⟨log, ?_⟩
  rw [BuildM.onGraph, Stateful.run_focus, h]

theorem runReported {p : Pass} {stats : PassStats} (h : Takes p.run g stats g') : Takes p.runReported g stats g' :=
  h.bind (Takes.bind (fun log => ⟨log ++ [.passStats p.name stats], rfl⟩) (.pure stats g'))

end Takes

end BuildM

open BuildM

namespace Pass

/-- Passes that have nothing to do. -/
theorem takes_runAll_idle : ∀ {passes : List Pass}, (∀ p ∈ passes, Takes p.run g {} g) → Takes (runAll passes) g {} g
  | [], _ => .pure _ g
  | p :: passes, h => by
    have hfirst : Takes (do return ({} : PassStats).merge (← p.runReported)) g {} g :=
      (h p (List.mem_cons_self ..)).runReported.bind (.pure _ g)
    have hrest := takes_runAll_idle fun q hq => h q (List.mem_cons_of_mem _ hq)
    unfold runAll at hrest ⊢
    rw [List.foldlM_cons]
    exact hfirst.bind hrest

theorem takes_runUntilStable_idle {passes : List Pass} (h : ∀ p ∈ passes, Takes p.run g {} g) :
    ∀ limit, Takes (runUntilStable passes limit) g {} g
  | 0 => .pure _ g
  | _ + 1 => (takes_runAll_idle h).bind (.pure ({} : PassStats) g)

/-- After a round that leaves nothing to do it does not matter how many rounds may follow. -/
theorem runUntilStable_of_round {passes : List Pass} {b b₁ : Build} {stats : PassStats}
    (hround : (runAll passes).run b = (.ok stats, b₁)) (hidle : ∀ p ∈ passes, Takes p.run b₁.graph {} b₁.graph)
    (limit : Nat) : ∃ stats' b', (runUntilStable passes (limit + 1)).run b = (.ok stats', b') ∧ b'.graph = b₁.graph := by
  unfold runUntilStable
  simp only [Stateful.run_bind, hround]
  by_cases hchanged : stats.changed = true
  · obtain ⟨log', hrest⟩ := takes_runUntilStable_idle hidle limit b₁.log
    have hrest : (runUntilStable passes limit).run b₁ = (.ok {}, ⟨b₁.graph, log'⟩) := hrest
    refine ⟨stats.merge {}, ⟨b₁.graph, log'⟩, ?_, rfl⟩
    rw [if_pos hchanged]
    exact Stateful.run_bind_ok.2 ⟨_, _, hrest, rfl⟩
  · exact ⟨stats, b₁, by rw [if_neg hchanged]; rfl, rfl⟩

/-- A round: patterns are applied, if there are any, and dead ops are removed. -/
def round (patterns : List Pattern) : List Pass :=
  (if patterns.isEmpty then [] else [applyPatterns patterns]) ++ [deadOps]

/-- What a round does. -/
theorem run_round_ok {b b' : Build} {stats : PassStats} (h : (runAll (round patterns)).run b = (.ok stats, b')) :
    ∃ b₁ k, (patterns = [] ∧ b₁.graph = b.graph ∨
        ∃ n, (Greedy.exhaust patterns Greedy.unlimited).run b = (.ok n, b₁)) ∧
      removeDead.run b₁.graph = (.ok k, b'.graph) := by
  have hdead : ∀ {total : PassStats} {b : Build}, ([deadOps].foldlM (fun total p => do
      return total.merge (← p.runReported)) total : BuildM PassStats).run b = (.ok stats, b') →
      ∃ k, removeDead.run b.graph = (.ok k, b'.graph) := by
    intro total b h
    rw [List.foldlM_cons] at h
    obtain ⟨_, b₂, hpass, h⟩ := Stateful.run_bind_ok.1 h
    cases h
    obtain ⟨_, b₃, hpass, h⟩ := Stateful.run_bind_ok.1 hpass
    cases h
    obtain ⟨b₄, hpass, hgraph⟩ := runReported_ok hpass
    obtain ⟨k, b₅, hremove, h⟩ := Stateful.run_bind_ok.1 hpass
    cases h
    exact ⟨k, by rw [hgraph]; exact run_onGraph_ok hremove⟩
  rw [runAll, round] at h
  split at h
  · rename_i hempty
    obtain ⟨k, hk⟩ := hdead h
    exact ⟨b, k, .inl ⟨List.isEmpty_iff.1 hempty, rfl⟩, hk⟩
  · rename_i hne
    rw [List.foldlM_append, List.foldlM_cons] at h
    obtain ⟨_, b₁, hfirst, h⟩ := Stateful.run_bind_ok.1 h
    obtain ⟨k, hk⟩ := hdead h
    obtain ⟨_, b₂, hpass, hfirst⟩ := Stateful.run_bind_ok.1 hfirst
    cases hfirst
    obtain ⟨_, b₃, hpass, hfirst⟩ := Stateful.run_bind_ok.1 hpass
    cases hfirst
    obtain ⟨b₄, hpass, hgraph⟩ := runReported_ok hpass
    obtain ⟨⟨n, m⟩, b₅, hgreedy, h⟩ := Stateful.run_bind_ok.1 hpass
    cases h
    rw [Greedy.run, if_neg hne] at hgreedy
    obtain ⟨n', b₆, hexhaust, h⟩ := Stateful.run_bind_ok.1 hgreedy
    cases h
    exact ⟨b₄, k, .inr ⟨n, hexhaust⟩, hgraph ▸ hk⟩

end Pass

/-! ## Graphs on which nothing is left to do -/

/-- No pattern applies anywhere, all ops are live, and nothing is an orphan. -/
structure Simplified (patterns : List Pattern) (g : Graph) : Prop where
  wellFormed : g.WellFormed
  acyclic : g.Acyclic
  idle : ∀ o op, g.op? o = some op → ∀ q ∈ Pattern.candidates patterns op, ∀ versions, q.1.Idle op ⟨g, versions⟩
  needed : ∀ o op, g.op? o = some op → g.Needed o
  orphans : g.orphans = []

/-- A round on such a graph has nothing to do. -/
theorem Simplified.takes_round (h : Simplified patterns g) : ∀ p ∈ Pass.round patterns, Takes p.run g {} g := by
  obtain ⟨work, hwork⟩ := h.acyclic.order_ok h.wellFormed.linked
  intro p hp
  rcases List.mem_append.1 hp with hp | hp
  · split at hp
    · cases hp
    · rename_i hne
      rw [List.mem_singleton.1 hp]
      intro log
      have hexhaust := @Greedy.exhaust_of_idle patterns ⟨g, log⟩ h.wellFormed.linked _ hwork
        (fun o op ho q hq => h.idle o op ho q hq .empty) Greedy.unlimited
      refine ⟨log, Stateful.run_bind_ok.2 ⟨(0, 0), ⟨g, log⟩, ?_, rfl⟩⟩
      rw [Greedy.run, if_neg hne]
      exact Stateful.run_bind_ok.2 ⟨0, _, hexhaust, rfl⟩
  · rw [List.mem_singleton.1 hp]
    exact (Takes.onGraph (removeDead_idle h.wellFormed.linked h.acyclic h.needed h.orphans)).bind (.pure _ g)

namespace Greedy

/-- Greedy use of built-in patterns leaves a well-formed graph, and applies no more often than the graph weighs. -/
theorem exhaust_light (hp : ∀ p ∈ patterns, ∃ k : BuiltIn, k.pattern? backend = some p) {b b' : Build} {budget n : Nat}
    (h : b.graph.WellFormed) {work : List OpId} (hwork : b.graph.order = .ok work)
    (hrun : (exhaust patterns budget).run b = (.ok n, b')) : b'.graph.WellFormed ∧ n ≤ b.graph.weight := by
  have hvalid : Point.Valid patterns ⟨.start b, none, work⟩ := Point.valid_seeded h hwork
  obtain ⟨events, c, hsteps, hend⟩ := @exhaustFrom_run patterns budget work (.start b)
  obtain ⟨hc, hcount⟩ := hsteps.weight_le hp hvalid
  have hcount : events.count .applied ≤ b.graph.weight := Nat.le_of_add_right_le hcount
  rw [run_exhaust hwork] at hrun
  rcases hend with ⟨-, -, hend⟩ | ⟨f, s', -, hend⟩ | ⟨hbudget, hend⟩
  · rw [hend] at hrun
    cases hrun
    exact ⟨hc.wellFormed, hcount⟩
  · rw [hend] at hrun
    cases hrun
  · rw [hend] at hrun
    cases hrun
    exact ⟨hc.wellFormed, hbudget ▸ hcount⟩

end Greedy

/-- One round is enough, if its budget is. -/
theorem Pass.round_simplified (hp : ∀ p ∈ patterns, ∃ k : BuiltIn, k.pattern? backend = some p) {b b' : Build}
    {stats : PassStats} (h : b.graph.WellFormed) (ha : b.graph.Acyclic) (hsize : b.graph.weight < Greedy.unlimited)
    (hrun : (runAll (round patterns)).run b = (.ok stats, b')) : Simplified patterns b'.graph := by
  obtain ⟨b₁, k, hfirst, hremove⟩ := run_round_ok hrun
  have hmid : b₁.graph.WellFormed ∧ b₁.graph.Acyclic ∧ ∀ o op, b₁.graph.op? o = some op →
      ∀ q ∈ Pattern.candidates patterns op, ∃ r, r.graph = b₁.graph ∧ q.1.Idle op r := by
    rcases hfirst with ⟨hempty, hgraph⟩ | ⟨n, hexhaust⟩
    · rw [hgraph]
      refine ⟨h, ha, fun o op _ q hq => ?_⟩
      rw [hempty] at hq
      cases hq
    · obtain ⟨work, hwork⟩ := ha.order_ok h.linked
      obtain ⟨hwell, hle⟩ := Greedy.exhaust_light hp h hwork hexhaust
      obtain ⟨hl, ⟨l, hl₁⟩, hidle⟩ := Greedy.exhaust_idle hp h hwork hexhaust (hle.trans_lt hsize)
      exact ⟨hwell, (order_complete hl hl₁).acyclic, hidle⟩
  obtain ⟨hwell, hacyclic, hidle⟩ := hmid
  obtain ⟨k', g', hrun', hpruned, -⟩ := hwell.removeDead_pruned hacyclic
  obtain ⟨-, hgraph⟩ := Prod.mk.inj (hremove.symm.trans hrun')
  rw [hgraph]
  refine ⟨hpruned.wellFormed, hpruned.acyclic hacyclic, fun o op ho q hq versions => ?_,
    fun o op ho => hpruned.needed hwell.linked ho, hpruned.orphans_eq⟩
  -- a pattern that does not apply before the removal of dead ops does not apply after it
  obtain ⟨hmem, happ⟩ := Greedy.mem_candidates hq
  obtain ⟨builtIn, hbuiltIn⟩ := hp q.1 hmem
  obtain ⟨r, hr, hno⟩ := hidle o op (hpruned.restricts.op ho) q hq
  exact BuiltIn.looks hbuiltIn happ hno (hr.symm ▸ hpruned.restricts.alikeAround hpruned.kept ho)

/-! ## Marks -/

/-- Built-in patterns do not look at marks. -/
theorem BuiltIn.attempt_withInPlace (hp : k.pattern? backend = some p) (op : Op) (mark : Bool) :
    p.applies (op.withInPlace mark) = p.applies op ∧ p.attempt (op.withInPlace mark) = p.attempt op := by
  cases k with
  | foldConstants =>
    obtain ⟨b, -, rfl⟩ := Option.map_eq_some_iff.1 hp
    exact ⟨rfl, rfl⟩
  | inPlace => cases hp
  | _ =>
    cases hp
    exact ⟨rfl, rfl⟩

namespace Graph

theorem needed_clearInPlace {o : OpId} : g.clearInPlace.Needed o ↔ g.Needed o := by
  have hreach : Relation.ReflTransGen g.clearInPlace.Feeds = Relation.ReflTransGen g.Feeds := by
    have hfeeds : g.clearInPlace.Feeds = g.Feeds := by
      funext p q
      exact propext feeds_clearInPlace
    rw [hfeeds]
  unfold Needed
  refine exists_congr fun r => ?_
  have hroot := exists_op_clearInPlace (g := g) (o := r)
    (p := fun op => ∃ t, t ∈ op.outputs ∧ (t ∈ g.kept ∨ op.kind = .sgdVarUpdate) ∧ Relation.ReflTransGen g.Feeds o r)
    fun _ => Iff.rfl
  simp only [← exists_and_left] at hroot
  rw [hreach]
  exact hroot

end Graph

/-- Marks are no part of it. -/
theorem simplified_clearInPlace (hp : ∀ p ∈ patterns, ∃ k : BuiltIn, k.pattern? backend = some p) :
    Simplified patterns g.clearInPlace ↔ Simplified patterns g := by
  -- a pattern applies to an op and to the marked op alike
  have hidle : ∀ {o op}, g.op? o = some op →
      ((∀ q ∈ Pattern.candidates patterns (op.withInPlace false), ∀ versions,
          q.1.Idle (op.withInPlace false) ⟨g.clearInPlace, versions⟩) ↔
        ∀ q ∈ Pattern.candidates patterns op, ∀ versions, q.1.Idle op ⟨g, versions⟩) := by
    intro o op _
    have hcandidates : Pattern.candidates patterns (op.withInPlace false) = Pattern.candidates patterns op := by
      refine List.filter_congr fun q hq => ?_
      obtain ⟨builtIn, hbuiltIn⟩ := hp q.1 (List.fst_mem_of_mem_zipIdx hq)
      exact congrArg₂ and rfl (BuiltIn.attempt_withInPlace hbuiltIn op false).1
    rw [hcandidates]
    refine forall₂_congr fun q hq => forall_congr' fun versions => ?_
    obtain ⟨hmem, happ⟩ := Greedy.mem_candidates hq
    obtain ⟨builtIn, hbuiltIn⟩ := hp q.1 hmem
    rw [Pattern.Idle, (BuiltIn.attempt_withInPlace hbuiltIn op false).2]
    have halike : Pattern.AlikeAround op g g.clearInPlace := ⟨fun _ _ => rfl, fun _ _ => rfl, rfl⟩
    have halike' : Pattern.AlikeAround op g.clearInPlace g := ⟨fun _ _ => rfl, fun _ _ => rfl, rfl⟩
    constructor
    · exact fun hno => BuiltIn.looks hbuiltIn happ hno halike'
    · exact fun hno => BuiltIn.looks hbuiltIn happ hno halike
  constructor
  · intro h
    refine ⟨wellFormed_clearInPlace.1 h.wellFormed, h.acyclic.of_feeds fun hf => .single (feeds_clearInPlace.2 hf),
      fun o op ho => (hidle ho).1 (h.idle o _ (op?_clearInPlace_of ho)),
      fun o op ho => needed_clearInPlace.1 (h.needed o _ (op?_clearInPlace_of ho)), h.orphans⟩
  · intro h
    refine ⟨wellFormed_clearInPlace.2 h.wellFormed, h.acyclic.clearInPlace, fun o op ho => ?_, fun o op ho => ?_,
      h.orphans⟩ <;> obtain ⟨-, op₀, ho₀, rfl⟩ := op_of_clearInPlace ho
    · exact (hidle ho₀).2 (h.idle o op₀ ho₀)
    · exact needed_clearInPlace.2 (h.needed o op₀ ho₀)

theorem Simplified.markInPlace (h : Simplified patterns g)
    (hp : ∀ p ∈ patterns, ∃ k : BuiltIn, k.pattern? backend = some p) {n : Nat}
    (hrun : (Graph.markInPlace).run g = (.ok n, g')) : Simplified patterns g' := by
  rw [← simplified_clearInPlace hp, clearInPlace_markInPlace hrun, simplified_clearInPlace hp]
  exact h

namespace Graph

/-- The graph with marks on the given ops. -/
def withMarks (g : Graph) (ids : List OpId) : Graph :=
  { g with ops := ids.foldl (fun d i => d.modify i (·.withInPlace true)) g.ops }

theorem op?_withMarks (ids : List OpId) (o : OpId) :
    (g.withMarks ids).op? o = if o ∈ ids then (g.op? o).map (·.withInPlace true) else g.op? o := by
  have hidem : ∀ op : Op, (op.withInPlace true).withInPlace true = op.withInPlace true := fun _ => rfl
  rw [withMarks, op?, Dict.get?_foldl_modify hidem]
  rfl

/-- The ops that may run in place are marked, all of them. -/
theorem run_markInPlace {order : List OpId} (horder : g.order = .ok order) :
    (markInPlace).run g = (.ok ((order.filterMap g.op?).filter g.inPlaceCandidate).length,
      g.withMarks (((order.filterMap g.op?).filter g.inPlaceCandidate).map (·.id))) := by
  have hops : g.orderedOps = .ok (order.filterMap g.op?) := by
    rw [orderedOps, horder]
    rfl
  have hmarked : ∀ chosen : List Op, chosen.foldl (fun g op => g.modifyOp op.id fun o => { o with inPlace := true }) g =
      g.withMarks (chosen.map (·.id)) := by
    intro chosen
    rw [withMarks, ← foldl_modifyOp, List.foldl_map]
    rfl
  unfold markInPlace
  refine Stateful.run_bind_ok.2 ⟨g, g, rfl, Stateful.run_bind_ok.2 ⟨_, g, by rw [Stateful.run_lift, hops], ?_⟩⟩
  rw [← hmarked]
  rfl

/-- Marking once more marks nothing. -/
theorem markInPlace_again (hl : g.Linked) {n : Nat} (hrun : (markInPlace).run g = (.ok n, g')) :
    (markInPlace).run g' = (.ok 0, g') := by
  have horder : ∃ order, g.order = .ok order := by
    unfold markInPlace at hrun
    replace hrun := Stateful.of_get_bind hrun
    obtain ⟨ops, _, hops, -⟩ := Stateful.run_bind_ok.1 hrun
    rw [Stateful.run_lift, Prod.mk.injEq] at hops
    obtain ⟨order, horder, -⟩ := Outcome.bind_eq_ok.1 hops.1
    exact ⟨order, horder⟩
  obtain ⟨order, horder⟩ := horder
  have horder' : g'.order = .ok order := by
    rw [← order_clearInPlace, clearInPlace_markInPlace hrun, order_clearInPlace, horder]
  have hnone : (order.filterMap g'.op?).filter g'.inPlaceCandidate = [] := by
    obtain ⟨-, hg⟩ := Prod.mk.inj ((run_markInPlace horder).symm.trans hrun)
    refine List.filter_eq_nil_iff.2 fun op hop hcandidate => ?_
    obtain ⟨o, ho, hop⟩ := List.mem_filterMap.1 hop
    have hmay : g'.mayOverwrite op = g.mayOverwrite op := by
      rw [← hg]
      exact mayOverwrite_congr rfl rfl rfl rfl
    rw [inPlaceCandidate, hmay] at hcandidate
    rw [← hg, op?_withMarks] at hop
    split at hop
    · obtain ⟨op₀, -, rfl⟩ := Option.map_eq_some_iff.1 hop
      cases hcandidate
    · rename_i hnot
      exact hnot (List.mem_map.2 ⟨op, List.mem_filter.2 ⟨List.mem_filterMap.2 ⟨o, ho, hop⟩, hcandidate⟩, hl.opId hop⟩)
  rw [run_markInPlace horder', hnone]
  rfl

end Graph

/-! ## Pipelines -/

namespace Selection

variable {s : Selection} {r : PatternRegistry}

theorem pipeline_eq (limit : Nat) : s.pipeline r backend limit =
    [.fixedPoint limit (Pass.round (s.patterns r backend))] ++ if s.isEnabled .inPlace then [.once Pass.inPlace] else [] :=
  rfl

/-- The last stage of a pipeline. -/
def marking (s : Selection) (total : PassStats) : BuildM PassStats :=
  (if s.isEnabled .inPlace then [Stage.once Pass.inPlace] else []).foldlM (fun total s => do
    return total.merge (← s.run)) total

/-- A pipeline runs rounds until they change nothing, and then marks. -/
theorem runAll_pipeline (limit : Nat) : Stage.runAll (s.pipeline r backend limit) =
    (Pass.runUntilStable (Pass.round (s.patterns r backend)) (max limit 1) >>= fun total =>
      s.marking (({} : PassStats).merge total)) := by
  rw [pipeline_eq, Stage.runAll, List.foldlM_append, List.foldlM_cons]
  simp only [List.foldlM_nil, bind_assoc, pure_bind, Stage.fixedPoint, Stage.run]
  rfl

/-- Without registered ones all patterns are built-in. -/
theorem builtIn_of_mem_patterns {builtIn : List BuiltIn} :
    ∀ p ∈ (Selection.mk builtIn .empty).patterns r backend, ∃ k : BuiltIn, k.pattern? backend = some p := by
  intro p hp
  rw [patterns, Pattern.ordered, List.mem_mergeSort, List.mem_append] at hp
  rcases hp with hp | hp
  · obtain ⟨builtIn, -, hp⟩ := List.mem_filterMap.1 hp
    exact ⟨builtIn, hp⟩
  · obtain ⟨name, hname, -⟩ := List.mem_filterMap.1 hp
    cases hname

/-- A pass that is the last stage. -/
theorem takes_once {p : Pass} {stats : PassStats} (h : Takes p.run g stats g') (total : PassStats) :
    Takes ([Stage.once p].foldlM (fun total s => do return total.merge (← s.run)) total) g (total.merge stats) g' := by
  have hstage : Takes (do return total.merge (← (Stage.once p).run)) g (total.merge stats) g' :=
    h.runReported.bind (.pure _ g')
  rw [List.foldlM_cons]
  exact hstage.bind (.pure _ g')

/-- Marking succeeds on a simplified graph and leaves one on which there is nothing to mark. -/
theorem marking_simplified (hp : ∀ p ∈ patterns, ∃ k : BuiltIn, k.pattern? backend = some p)
    (h : Simplified patterns g) : ∃ g', Simplified patterns g' ∧ (∀ total, ∃ stats, Takes (s.marking total) g stats g') ∧
      Takes (s.marking {}) g' {} g' := by
  unfold marking
  split
  · obtain ⟨order, horder⟩ := h.acyclic.order_ok h.wellFormed.linked
    have hmark := run_markInPlace horder
    have hagain := markInPlace_again h.wellFormed.linked hmark
    generalize ((order.filterMap g.op?).filter g.inPlaceCandidate).length = n at hmark
    refine ⟨_, h.markInPlace hp hmark, fun total => ?_, ?_⟩
    · have hpass : Takes Pass.inPlace.run g { changed := n ≠ 0, edits := n } _ := (Takes.onGraph hmark).bind (.pure _ _)
      exact ⟨_, takes_once hpass total⟩
    · have hpass : Takes Pass.inPlace.run _ {} _ := (Takes.onGraph hagain).bind (.pure ({} : PassStats) _)
      exact takes_once hpass {}
  · exact ⟨g, h, fun total => ⟨total, .pure total g⟩, .pure _ g⟩

/-- Pipelines of built-in patterns are idempotent, and their limit does not matter: if a pipeline succeeds on a
well-formed graph without cycles, it succeeds with every other limit, and leaves the same graph; and on what it leaves a
pipeline with any limit changes nothing. A graph allows for at most seven rewrites for each of its ops, so that no graph
that fits in memory, where an op takes more than seven bytes, uses up the budget of greedy use. -/
theorem pipeline_idempotent (builtIn : List BuiltIn) (r : PatternRegistry) (backend : Option Backend) {limit : Nat}
    {b b' : Build} {stats : PassStats} (h : b.graph.WellFormed) (ha : b.graph.Acyclic)
    (hsize : 7 * b.graph.ops.size < Greedy.unlimited)
    (hrun : (Stage.runAll (pipeline ⟨builtIn, .empty⟩ r backend limit)).run b = (.ok stats, b')) :
    (∀ limit', ∃ stats' b'', (Stage.runAll (pipeline ⟨builtIn, .empty⟩ r backend limit')).run b = (.ok stats', b'') ∧
      b''.graph = b'.graph) ∧
    ∀ limit' log, ∃ log', (Stage.runAll (pipeline ⟨builtIn, .empty⟩ r backend limit')).run ⟨b'.graph, log⟩ =
      (.ok { changed := false, iterations := 0, edits := 0, erased := 0 }, ⟨b'.graph, log'⟩) := by
  have hp := @builtIn_of_mem_patterns backend r builtIn
  have hrounds : ∀ limit, ∃ n, max limit 1 = n + 1 := fun limit => ⟨max limit 1 - 1, by omega⟩
  -- the first round of all runs is the same
  obtain ⟨stats₁, b₁, hround⟩ : ∃ stats₁ b₁, (Pass.runAll (Pass.round (patterns ⟨builtIn, .empty⟩ r backend))).run b =
      (.ok stats₁, b₁) := by
    obtain ⟨n, hn⟩ := hrounds limit
    rw [runAll_pipeline, hn] at hrun
    obtain ⟨_, _, hrounds, -⟩ := Stateful.run_bind_ok.1 hrun
    obtain ⟨stats₁, b₁, hround, -⟩ := Stateful.run_bind_ok.1 hrounds
    exact ⟨stats₁, b₁, hround⟩
  have hsimplified := Pass.round_simplified hp h ha (b.graph.weight_le.trans_lt hsize) hround
  obtain ⟨g', hsimplified', hmark, hagain⟩ := marking_simplified (s := ⟨builtIn, .empty⟩) hp hsimplified
  have hruns : ∀ limit', ∃ stats' b'', (Stage.runAll (pipeline ⟨builtIn, .empty⟩ r backend limit')).run b =
      (.ok stats', b'') ∧ b''.graph = g' := by
    intro limit'
    obtain ⟨n, hn⟩ := hrounds limit'
    obtain ⟨stats₂, b₂, hstable, hgraph⟩ := Pass.runUntilStable_of_round hround hsimplified.takes_round n
    obtain ⟨stats', hmark⟩ := hmark (({} : PassStats).merge stats₂)
    obtain ⟨log', hmark⟩ := hmark b₂.log
    rw [← hgraph] at hmark
    rw [runAll_pipeline, hn]
    exact ⟨stats', ⟨g', log'⟩, Stateful.run_bind_ok.2 ⟨stats₂, b₂, hstable, hmark⟩, rfl⟩
  have hend : b'.graph = g' := by
    obtain ⟨stats', b'', hrun', hgraph⟩ := hruns limit
    cases hrun.symm.trans hrun'
    exact hgraph
  rw [hend]
  refine ⟨hruns, fun limit' => ?_⟩
  rw [runAll_pipeline]
  exact (Pass.takes_runUntilStable_idle hsimplified'.takes_round _).bind hagain

/-- The patterns in their order, put so that it can be evaluated. -/
theorem patterns_eq_insertionSort : s.patterns r backend = (s.builtIn.filterMap (BuiltIn.pattern? backend) ++
    s.registered.toList.filterMap fun name => (r.get? name).map (·.pattern)).insertionSort
      fun a b => decide (b.benefit ≤ a.benefit) = true := by
  refine mergeSort_eq_insertionSort (fun a b c hab hbc => ?_) (fun a b => ?_) _
  · exact decide_eq_true ((of_decide_eq_true hbc).trans (of_decide_eq_true hab))
  · rw [Bool.or_eq_true]
    exact (Nat.le_total b.benefit a.benefit).imp decide_eq_true decide_eq_true

open Greedy in
/-- With all patterns the gradient for a divisor ends as five ops, after one round as after ten. -/
theorem pipeline_idempotent_quotient : ∃ stats b', stats.edits = 6 ∧ b'.graph.ops.size = 5 ∧
    (Stage.runAll (pipeline ⟨BuiltIn.all, .empty⟩ .empty none 1)).run ⟨quotient, []⟩ = (.ok stats, b') ∧
    (∃ stats₁₀ b₁₀, (Stage.runAll (pipeline ⟨BuiltIn.all, .empty⟩ .empty none 10)).run ⟨quotient, []⟩ = (.ok stats₁₀, b₁₀) ∧
      b₁₀.graph = b'.graph) ∧
    ∃ log, (Stage.runAll (pipeline ⟨BuiltIn.all, .empty⟩ .empty none 10)).run ⟨b'.graph, []⟩ =
      (.ok { changed := false, iterations := 0, edits := 0, erased := 0 }, ⟨b'.graph, log⟩) := by
  have hcall : ((Stage.runAll (pipeline ⟨BuiltIn.all, .empty⟩ .empty none 1)).run ⟨quotient, []⟩).1 =
      .ok { changed := true, iterations := 4, edits := 6, erased := 0 } ∧
      ((Stage.runAll (pipeline ⟨BuiltIn.all, .empty⟩ .empty none 1)).run ⟨quotient, []⟩).2.graph.ops.size = 5 := by
    simp only [pipeline, patterns_eq_insertionSort]
    decide +kernel
  obtain ⟨hlimits, hagain⟩ := pipeline_idempotent BuiltIn.all .empty none quotient_wellFormed quotient_acyclic
    (by decide +kernel) (Stateful.eq_ok_of_fst hcall.1)
  exact ⟨_, _, rfl, hcall.2, Stateful.eq_ok_of_fst hcall.1, hlimits 10, hagain 10 []⟩

end Selection

end TensorGraph
