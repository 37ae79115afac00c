import TensorGraph.Proofs.Pattern.BuiltIn

/-!
What pipelines of patterns leave of a graph. A sweep tries patterns on op after op, greedy use repeats sweeps, a
pipeline repeats greedy use and removal of dead ops: each keeps what a single pattern keeps. Removal of dead ops comes
last and asks for an order of the ops, so what a pipeline leaves has no cycles.
-/
namespace TensorGraph

open TensorGraph.Graph

variable {patterns : List Pattern}

/-! ## Greedy use -/

namespace Greedy

variable {s s' : Search}

theorem run_onEditor_ok {α : Type} {x : EditM α} {a : α} (h : (onEditor x).run s = (.ok a, s')) :
    x.run s.editor = (.ok a, s'.editor) := by
  rw [onEditor, Stateful.run_focus, Prod.mk.injEq] at h
  obtain ⟨h1, rfl⟩ := h
  exact Prod.ext h1 rfl

/-- Patterns that do not apply leave the graph as it is, so the next one is tried on the same op. -/
theorem tryPatterns_redrafted {op : Op} {version : Nat} : ∀ {l : List (Pattern × Nat)} {s s' : Search}
    {result : Option Pattern}, (∀ q ∈ l, q.1.Keeps ∧ q.1.applies op = true) → s.editor.graph.Steady none →
    s.editor.graph.op? op.id = some op → (tryPatterns op version l).run s = (.ok result, s') →
    Redrafted s.editor.graph s'.editor.graph
  | [], s, s', result, _, h, _, hrun => by
    cases hrun
    exact .refl h
  | (p, i) :: l, s, s', result, hl, h, ho, hrun => by
    have hrest : ∀ q ∈ l, q.1.Keeps ∧ q.1.applies op = true := fun q hq => hl q (List.mem_cons_of_mem _ hq)
    obtain ⟨hkeeps, happ⟩ := hl (p, i) (List.mem_cons_self ..)
    replace hrun := Stateful.of_get_bind hrun
    split at hrun
    · exact tryPatterns_redrafted hrest h ho hrun
    · obtain ⟨applied, s₁, hattempt, hrun⟩ := Stateful.run_bind_ok.1 hrun
      have hedit := run_onEditor_ok hattempt
      cases applied with
      | true =>
        cases hrun
        exact hkeeps.changed h ho happ hedit
      | false =>
        have hsame := hkeeps.unchanged hedit
        obtain ⟨_, s₂, hmodify, hrun⟩ := Stateful.run_bind_ok.1 hrun
        cases hmodify
        rw [← hsame] at h ho ⊢
        exact tryPatterns_redrafted (s := s₁.noteFailure op.id i version) hrest h ho hrun

theorem mem_candidates {op : Op} {q : Pattern × Nat} (h : q ∈ Pattern.candidates patterns op) :
    q.1 ∈ patterns ∧ q.1.applies op = true := by
  obtain ⟨hmem, hcond⟩ := List.mem_filter.1 h
  simp only [Bool.and_eq_true] at hcond
  exact ⟨List.fst_mem_of_mem_zipIdx hmem, hcond.2⟩

theorem sweep_redrafted (hp : ∀ p ∈ patterns, p.Keeps) : ∀ {l : List OpId} {s s' : Search}
    {result : Option (Pattern × Op)}, s.editor.graph.Steady none → (sweep patterns l).run s = (.ok result, s') →
    Redrafted s.editor.graph s'.editor.graph
  | [], s, s', result, h, hrun => by
    cases hrun
    exact .refl h
  | id :: l, s, s', result, h, hrun => by
    replace hrun := Stateful.of_get_bind hrun
    simp only at hrun
    split at hrun
    · exact sweep_redrafted hp h hrun
    · rename_i op ho
      have hid := h.sound.linked.opId ho
      obtain ⟨found, s₁, htry, hrun⟩ := Stateful.run_bind_ok.1 hrun
      have hfirst := tryPatterns_redrafted (fun q hq => ⟨hp q.1 (mem_candidates hq).1, (mem_candidates hq).2⟩) h
        (hid ▸ ho) htry
      cases found with
      | some p =>
        cases hrun
        exact hfirst
      | none => exact hfirst.trans (sweep_redrafted hp hfirst.steady hrun)

theorem exhaustFrom_redrafted (hp : ∀ p ∈ patterns, p.Keeps) : ∀ {budget : Nat} {work : List OpId} {s s' : Search}
    {n : Nat}, s.editor.graph.Steady none → (exhaustFrom patterns budget work).run s = (.ok n, s') →
    Redrafted s.editor.graph s'.editor.graph
  | 0, work, s, s', n, h, hrun => by
    cases hrun
    exact .refl h
  | budget + 1, work, s, s', n, h, hrun => by
    obtain ⟨found, s₁, hsweep, hrun⟩ := Stateful.run_bind_ok.1 hrun
    have hfirst := sweep_redrafted hp h hsweep
    match found, hrun with
    | none, hrun =>
      cases hrun
      exact hfirst
    | some (p, op), hrun =>
      obtain ⟨_, s₂, hmodify, hrun⟩ := Stateful.run_bind_ok.1 hrun
      cases hmodify
      obtain ⟨next, s₃, hwork, hrun⟩ := Stateful.run_bind_ok.1 hrun
      replace hwork := Stateful.of_get_bind hwork
      rw [Stateful.run_lift, Prod.mk.injEq] at hwork
      obtain ⟨-, rfl⟩ := hwork
      obtain ⟨applied, s₄, hrest, hrun⟩ := Stateful.run_bind_ok.1 hrun
      cases hrun
      exact hfirst.trans (exhaustFrom_redrafted hp (s := s₁.noteSuccess p op) hfirst.steady hrest)

theorem exhaust_redrafted (hp : ∀ p ∈ patterns, p.Keeps) {budget n : Nat} {b b' : Build} (h : b.graph.Steady none)
    (hrun : (exhaust patterns budget).run b = (.ok n, b')) : Redrafted b.graph b'.graph := by
  rw [exhaust, Stateful.run_focus, Prod.mk.injEq] at hrun
  obtain ⟨hok, rfl⟩ := hrun
  obtain ⟨work, s₁, hwork, hrest⟩ := Stateful.run_bind_ok.1 (Stateful.eq_ok_of_fst hok)
  replace hwork := Stateful.of_get_bind hwork
  rw [Stateful.run_lift, Prod.mk.injEq] at hwork
  obtain ⟨-, rfl⟩ := hwork
  exact exhaustFrom_redrafted hp (s := .start b) h hrest

end Greedy

/-! ## Passes -/

namespace Pass

variable {b b' : Build} {stats : PassStats}

/-- What is promised of a pass. -/
def Keeps (p : Pass) : Prop := ∀ {b stats b'}, b.graph.Steady none → p.run.run b = (.ok stats, b') →
  Redrafted b.graph b'.graph

theorem run_onGraph_ok {α : Type} {x : GraphM α} {a : α} (h : (BuildM.onGraph x).run b = (.ok a, b')) :
    x.run b.graph = (.ok a, b'.graph) := by
  rw [BuildM.onGraph, Stateful.run_focus, Prod.mk.injEq] at h
  obtain ⟨h1, rfl⟩ := h
  exact Prod.ext h1 rfl

theorem keeps_applyPatterns (hp : ∀ p ∈ patterns, p.Keeps) : (applyPatterns patterns).Keeps := by
  intro b stats b' h hrun
  obtain ⟨⟨n, m⟩, b₁, hgreedy, hrun⟩ := Stateful.run_bind_ok.1 hrun
  cases hrun
  unfold Greedy.run at hgreedy
  split at hgreedy
  · cases hgreedy
    exact .refl h
  · obtain ⟨applied, b₂, hexhaust, hgreedy⟩ := Stateful.run_bind_ok.1 hgreedy
    obtain ⟨removed, b₃, hclean, hgreedy⟩ := Stateful.run_bind_ok.1 hgreedy
    cases hclean
    cases hgreedy
    exact Greedy.exhaust_redrafted hp h hexhaust

theorem deadOps_redrafted (h : b.graph.Steady none) (hrun : deadOps.run.run b = (.ok stats, b')) :
    Redrafted b.graph b'.graph ∧ b'.graph.Acyclic := by
  obtain ⟨n, b₁, hdead, hrun⟩ := Stateful.run_bind_ok.1 hrun
  cases hrun
  exact removeDead_redrafted h (run_onGraph_ok hdead)

theorem inPlace_rewritten (h : b.graph.Steady none) (hrun : inPlace.run.run b = (.ok stats, b')) :
    Rewritten b.graph b'.graph ∧ (b.graph.Acyclic → b'.graph.Acyclic) ∧
      ∀ {V}, b.graph.Drafted V → b'.graph.NamesOnly V ∧ b'.graph.MarkedSafely := by
  obtain ⟨n, b₁, hmark, hrun⟩ := Stateful.run_bind_ok.1 hrun
  cases hrun
  exact markInPlace_rewritten h (run_onGraph_ok hmark)

/-- The report of a pass leaves its graph. -/
theorem runReported_ok {p : Pass} (hrun : p.runReported.run b = (.ok stats, b')) :
    ∃ b₁, p.run.run b = (.ok stats, b₁) ∧ b'.graph = b₁.graph := by
  obtain ⟨stats', b₁, hpass, hrun⟩ := Stateful.run_bind_ok.1 hrun
  obtain ⟨_, b₂, hreport, hrun⟩ := Stateful.run_bind_ok.1 hrun
  cases hreport
  cases hrun
  exact ⟨b₁, hpass, rfl⟩

/-- Passes that end with the removal of dead ops. -/
theorem runAll_redrafted {passes : List Pass} (hp : ∀ p ∈ passes, p.Keeps) (h : b.graph.Steady none)
    (hrun : (runAll (passes ++ [deadOps])).run b = (.ok stats, b')) :
    Redrafted b.graph b'.graph ∧ b'.graph.Acyclic := by
  rw [runAll, List.foldlM_append] at hrun
  obtain ⟨total, b₁, hfirst, hrun⟩ := Stateful.run_bind_ok.1 hrun
  have hredrafted : Redrafted b.graph b₁.graph := by
    refine Stateful.run_foldlM_keeps (fun cur : Build => Redrafted b.graph cur.graph) ?_ (.refl h) hfirst
    intro p hmem _ _ cur next hcur hstep
    obtain ⟨stats', b₂, hpass, hstep⟩ := Stateful.run_bind_ok.1 hstep
    cases hstep
    obtain ⟨b₃, hpass, hgraph⟩ := runReported_ok hpass
    rw [hgraph]
    exact hcur.trans (hp p hmem hcur.steady hpass)
  rw [List.foldlM_cons] at hrun
  obtain ⟨total', b₂, hlast, hrun⟩ := Stateful.run_bind_ok.1 hrun
  cases hrun
  obtain ⟨stats', b₃, hpass, hlast⟩ := Stateful.run_bind_ok.1 hlast
  cases hlast
  obtain ⟨b₄, hpass, hgraph⟩ := runReported_ok hpass
  obtain ⟨hdead, hacyclic⟩ := deadOps_redrafted hredrafted.steady hpass
  rw [hgraph]
  exact ⟨hredrafted.trans hdead, hacyclic⟩

/-- The same, repeated at least once. -/
theorem runUntilStable_redrafted {passes : List Pass} (hp : ∀ p ∈ passes, p.Keeps) : ∀ {limit : Nat} {b b' : Build}
    {stats : PassStats}, b.graph.Steady none →
    (runUntilStable (passes ++ [deadOps]) (limit + 1)).run b = (.ok stats, b') →
    Redrafted b.graph b'.graph ∧ b'.graph.Acyclic
  | limit, b, b', stats, h, hrun => by
    obtain ⟨stats', b₁, hround, hrun⟩ := Stateful.run_bind_ok.1 hrun
    obtain ⟨hfirst, hacyclic⟩ := runAll_redrafted hp h hround
    split at hrun
    · obtain ⟨stats'', b₂, hrest, hrun⟩ := Stateful.run_bind_ok.1 hrun
      cases hrun
      match limit, hrest with
      | 0, hrest =>
        cases hrest
        exact ⟨hfirst, hacyclic⟩
      | limit + 1, hrest =>
        obtain ⟨hmore, hacyclic'⟩ := runUntilStable_redrafted hp hfirst.steady hrest
        exact ⟨hfirst.trans hmore, hacyclic'⟩
    · cases hrun
      exact ⟨hfirst, hacyclic⟩

end Pass

/-! ## Pipelines -/

/-- The patterns of a registry keep what built-in ones keep. -/
def PatternRegistry.Fitting (r : PatternRegistry) : Prop := ∀ name entry, r.get? name = some entry → entry.pattern.Keeps

theorem PatternRegistry.fitting_empty : PatternRegistry.Fitting .empty := by
  intro name entry h
  cases h

namespace Selection

variable {r : PatternRegistry} {backend : Option Backend} {s : Selection}

theorem keeps_patterns (hr : r.Fitting) (hb : ∀ b ∈ backend, b.Lawful) : ∀ p ∈ s.patterns r backend, p.Keeps := by
  intro p hp
  rw [patterns, Pattern.ordered, List.mem_mergeSort, List.mem_append] at hp
  rcases hp with hp | hp
  · obtain ⟨builtIn, -, hp⟩ := List.mem_filterMap.1 hp
    exact BuiltIn.keeps hb hp
  · obtain ⟨name, -, hp⟩ := List.mem_filterMap.1 hp
    obtain ⟨entry, hentry, rfl⟩ := Option.map_eq_some_iff.1 hp
    exact hr name entry hentry

/-- What a pipeline of fitting patterns leaves: a rewritten graph without cycles. If no op of the graph was marked to
run in place, all marks are safe. -/
theorem pipeline_rewritten (hr : r.Fitting) (hb : ∀ b ∈ backend, b.Lawful) {limit : Nat} {b b' : Build}
    {stats : PassStats} (h : b.graph.Steady none)
    (hrun : (Stage.runAll (s.pipeline r backend limit)).run b = (.ok stats, b')) :
    Rewritten b.graph b'.graph ∧ b'.graph.Acyclic ∧
      ∀ {V}, b.graph.Drafted V → b'.graph.NamesOnly V ∧ b'.graph.MarkedSafely := by
  rw [Stage.runAll, pipeline, List.foldlM_append] at hrun
  obtain ⟨total, b₁, hfirst, hrun⟩ := Stateful.run_bind_ok.1 hrun
  rw [List.foldlM_cons] at hfirst
  obtain ⟨total', b₂, hstage, hfirst⟩ := Stateful.run_bind_ok.1 hfirst
  cases hfirst
  obtain ⟨stats', b₃, hstage, hpure⟩ := Stateful.run_bind_ok.1 hstage
  cases hpure
  obtain ⟨rounds, hrounds⟩ : ∃ rounds, max limit 1 = rounds + 1 := ⟨max limit 1 - 1, by omega⟩
  have hpasses : ∀ p ∈ (if (s.patterns r backend).isEmpty then [] else
      [Pass.applyPatterns (s.patterns r backend)] : List Pass), p.Keeps := by
    intro p hp
    split at hp
    · cases hp
    · rw [List.mem_singleton.1 hp]
      exact Pass.keeps_applyPatterns (keeps_patterns hr hb)
  rw [Stage.fixedPoint, Stage.run, hrounds] at hstage
  obtain ⟨hredrafted, hacyclic⟩ := Pass.runUntilStable_redrafted hpasses h hstage
  split at hrun
  · rw [List.foldlM_cons] at hrun
    obtain ⟨total'', b₄, hmark, hrun⟩ := Stateful.run_bind_ok.1 hrun
    cases hrun
    obtain ⟨stats'', b₅, hmark, hpure⟩ := Stateful.run_bind_ok.1 hmark
    cases hpure
    obtain ⟨b₆, hmark, hgraph⟩ := Pass.runReported_ok hmark
    obtain ⟨hmarked, hstays, hsafe⟩ := Pass.inPlace_rewritten hredrafted.steady hmark
    rw [hgraph]
    exact ⟨hredrafted.toRewritten.trans hmarked, hstays hacyclic, fun hg => hsafe (hredrafted.drafted hg)⟩
  · cases hrun
    refine ⟨hredrafted.toRewritten, hacyclic, fun hg => ?_⟩
    have hdraft := hredrafted.drafted hg
    exact ⟨hdraft.namesOnly, hdraft.markedSafely⟩

end Selection

end TensorGraph
