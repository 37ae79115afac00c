import TensorGraph.Proofs.Pattern.Versions

/-!
What greedy use of patterns leaves: a fixed point. A search notes failures with the versions at which they came and
passes over what it noted. The notes stay true, because whatever could make a pattern apply is counted, so at the end of
a search whose budget is not used up no pattern applies anywhere, and a search without notes would find nothing either.
-/
namespace TensorGraph

open TensorGraph.Graph

/-- A pattern does not apply to an op, and leaves the editor as it is. -/
def Pattern.Idle (p : Pattern) (op : Op) (r : Editor) : Prop := (p.attempt op).run r = (.ok false, r)

namespace Greedy

variable {patterns : List Pattern} {s s' : Search} {e : Event} {events : List Event} {c c' : Point} {op : Op}
  {backend : Option Backend}

/-- The same pattern stands at the same position. -/
theorem eq_of_mem_candidates {p q : Pattern} {i : Nat} (hp : (p, i) ∈ Pattern.candidates patterns op)
    (hq : (q, i) ∈ Pattern.candidates patterns op) : p = q := by
  have hpi := List.mem_zipIdx_iff_getElem?.1 (List.mem_filter.1 hp).1
  have hqi := List.mem_zipIdx_iff_getElem?.1 (List.mem_filter.1 hq).1
  exact Option.some.inj (hpi.symm.trans hqi)

/-! ## Notes -/

/-- The notes of a search are true: a pattern that is noted at the present version of an op does not apply to it. -/
def Search.Honest (patterns : List Pattern) (s : Search) : Prop := ∀ {o notes i v}, s.failed.get? o = some notes →
  notes.get? i = some v → o < s.editor.graph.nextOp ∧ ∀ op, s.editor.graph.op? o = some op → v ≤ s.editor.version o ∧
    (v = s.editor.version o → ∀ p, (p, i) ∈ Pattern.candidates patterns op → p.Idle op s.editor)

namespace Search.Honest

theorem start (b : Build) : (Search.start b).Honest patterns := fun h => by cases h

/-- One more note that is true. -/
theorem noteFailure (h : s.Honest patterns) (hl : s.editor.graph.WellFormed) (ho : s.editor.graph.op? op.id = some op)
    {p : Pattern} {i : Nat} (hp : (p, i) ∈ Pattern.candidates patterns op) (hidle : p.Idle op s.editor) :
    (s.noteFailure op.id i (s.editor.version op.id)).Honest patterns := by
  intro o notes j v hnotes hv
  simp only [Search.noteFailure] at hnotes
  rw [Dict.get?_insert] at hnotes
  split at hnotes
  · rename_i heq
    subst heq
    cases hnotes
    rw [Dict.get?_insert] at hv
    split at hv
    · rename_i hij
      subst hij
      cases hv
      refine ⟨hl.opBound ho, fun op' ho' => ⟨Nat.le_refl _, fun _ q hq => ?_⟩⟩
      cases ho.symm.trans ho'
      exact eq_of_mem_candidates hp hq ▸ hidle
    · cases hnotes' : s.failed.get? op.id with
      | none =>
        rw [hnotes'] at hv
        cases hv
      | some notes =>
        rw [hnotes'] at hv
        exact h hnotes' hv
  · exact h hnotes hv

/-- What was counted since tells which notes still hold. -/
theorem noteSuccess (h : s.Honest patterns) (hp : ∀ p ∈ patterns, ∃ k : BuiltIn, k.pattern? backend = some p)
    {r : Editor} (hcounts : Editor.Counts s.editor r) (p : Pattern) (op : Op) :
    (({ s with editor := r } : Search).noteSuccess p op).Honest patterns := by
  intro o notes i v hnotes hv
  simp only [Search.noteSuccess] at hnotes ⊢
  rw [Dict.get?_erase] at hnotes
  split at hnotes
  · cases hnotes
  · obtain ⟨hlt, htrue⟩ := h hnotes hv
    refine ⟨hlt.trans_le hcounts.nextOp, fun op' ho' => ?_⟩
    obtain ⟨op₁, ho₁⟩ := (hcounts.fresh ho').resolve_right (Nat.not_le_of_lt hlt)
    obtain ⟨hle, hidle⟩ := htrue op₁ ho₁
    have hgrows := hcounts.grows ho₁ ho'
    refine ⟨hle.trans hgrows, fun heq q hq => ?_⟩
    obtain ⟨rfl, halike⟩ := hcounts.same ho₁ ho' (by omega)
    obtain ⟨hmem, happ⟩ := mem_candidates hq
    obtain ⟨k, hk⟩ := hp q hmem
    exact BuiltIn.looks hk happ (hidle (by omega) q hq) halike

end Search.Honest

/-! ## What is settled -/

/-- At a point of a search the notes are true, the ops have an order, and an op to which a pattern might apply is still
to be visited, or that pattern is still to be tried on it. -/
structure Point.Settled (patterns : List Pattern) (c : Point) : Prop where
  honest : c.search.Honest patterns
  ordered : ∃ l, c.graph.order = .ok l
  version : ∀ {op v rest}, c.trying = some (op, v, rest) → v = c.search.editor.version op.id
  settled : ∀ {o op}, c.graph.op? o = some op → o ∈ c.work ∨ ∀ q ∈ Pattern.candidates patterns op,
    (∃ v rest, c.trying = some (op, v, rest) ∧ q ∈ rest) ∨ q.1.Idle op c.search.editor

theorem Point.settled_seeded {s : Search} {work : List OpId} (hs : s.Honest patterns)
    (h : s.editor.graph.WellFormed) (hwork : s.editor.graph.order = .ok work) : Settled patterns ⟨s, none, work⟩ :=
  ⟨hs, ⟨work, hwork⟩, nofun, fun ho => .inl ((order_complete h.linked hwork).all ho)⟩

/-- A pattern that does not apply need not be tried any more. -/
theorem Point.Settled.tried {v i : Nat} {p : Pattern} {rest : List (Pattern × Nat)} {work : List OpId}
    (h : Settled patterns ⟨s, some (op, v, (p, i) :: rest), work⟩) (heditor : s'.editor = s.editor)
    (hs : s'.Honest patterns) (hidle : p.Idle op s.editor) : Settled patterns ⟨s', some (op, v, rest), work⟩ := by
  refine ⟨hs, ?_, fun heq => ?_, fun {o op'} ho => ?_⟩
  · obtain ⟨l, hl⟩ := h.ordered
    exact ⟨l, (congrArg (·.graph.order) heditor).trans hl⟩
  · cases heq
    exact (h.version rfl).trans (by rw [heditor])
  · have ho' : s.editor.graph.op? o = some op' := heditor ▸ ho
    refine (h.settled ho').imp_right fun hrest q hq => ?_
    rw [heditor]
    rcases hrest q hq with ⟨_, _, heq, hmem⟩ | hdone
    · cases heq
      rcases List.mem_cons.1 hmem with rfl | hmem
      · exact .inr hidle
      · exact .inl ⟨_, _, rfl, hmem⟩
    · exact .inr hdone

theorem noted_of_hasFailed {o : OpId} {i v : Nat} (h : s.hasFailed o i v = true) :
    ∃ notes, s.failed.get? o = some notes ∧ notes.get? i = some v := by
  rw [Search.hasFailed, beq_iff_eq] at h
  exact Option.bind_eq_some_iff.1 h

section Settling

variable (hp : ∀ p ∈ patterns, ∃ k : BuiltIn, k.pattern? backend = some p)

include hp

/-- Every step keeps this. -/
theorem Step.settled (hstep : Step patterns e c c') (hvalid : c.Valid patterns) (h : c.Settled patterns) :
    c'.Settled patterns := by
  cases hstep with
  | @gone s id work hgone =>
    refine ⟨h.honest, h.ordered, nofun, fun {o op} ho => ?_⟩
    refine (h.settled ho).imp_left fun hmem => (List.mem_cons.1 hmem).resolve_left ?_
    rintro rfl
    cases hgone.symm.trans ho
  | @visit s id work op hop =>
    refine ⟨h.honest, h.ordered, fun heq => ?_, fun {o op'} ho => ?_⟩
    · cases heq
      rw [hvalid.wellFormed.linked.opId hop]
    · by_cases heq : o = id
      · subst heq
        cases hop.symm.trans ho
        exact .inr fun q hq => .inl ⟨_, _, rfl, hq⟩
      · rcases h.settled ho with hmem | hidle
        · exact .inl ((List.mem_cons.1 hmem).resolve_left heq)
        · exact .inr fun q hq => .inr ((hidle q hq).resolve_left fun ⟨_, _, hnone, _⟩ => by cases hnone)
  | leave =>
    refine ⟨h.honest, h.ordered, nofun, fun ho => (h.settled ho).imp_right fun hidle q hq => .inr ?_⟩
    refine (hidle q hq).resolve_left fun ⟨_, _, heq, hmem⟩ => ?_
    cases heq
    cases hmem
  | @skip s op v i p rest work hfailed =>
    obtain ⟨ho, hsuffix⟩ := hvalid.trying rfl
    have hcandidate := hsuffix.subset (List.mem_cons_self ..)
    obtain ⟨notes, hnotes, hv⟩ := noted_of_hasFailed hfailed
    exact h.tried rfl h.honest (((h.honest hnotes hv).2 op ho).2 (h.version rfl) p hcandidate)
  | @fail s op v i p rest work r _ hrun =>
    obtain ⟨ho, hsuffix⟩ := hvalid.trying rfl
    have hcandidate := hsuffix.subset (List.mem_cons_self ..)
    cases unchanged_of_failed hp hcandidate hrun
    obtain rfl : v = s.editor.version op.id := h.version rfl
    have hhonest : s.Honest patterns := h.honest
    exact h.tried rfl (hhonest.noteFailure hvalid.wellFormed ho hcandidate hrun) hrun
  | @apply s op v i p rest work next r _ hrun horder =>
    obtain ⟨ho, hsuffix⟩ := hvalid.trying rfl
    obtain ⟨hmem, happ⟩ := mem_candidates (hsuffix.subset (List.mem_cons_self ..))
    obtain ⟨k, hk⟩ := hp p hmem
    have hacts := BuiltIn.acts hk happ hrun
    have hhonest : s.Honest patterns := h.honest
    exact Point.settled_seeded (hhonest.noteSuccess hp (hacts.counts hvalid.wellFormed ho) p op)
      (hacts.weight_lt hvalid.wellFormed ho).1 horder

theorem Run.settled (hrun : Run patterns events c c') (hvalid : c.Valid patterns) (h : c.Settled patterns) :
    c'.Settled patterns := by
  induction hrun with
  | stop => exact h
  | step hfirst _ ih => exact ih (hfirst.valid hp hvalid).1 (hfirst.settled hp hvalid h)

omit hp in
/-- Where nothing applies, a run changes nothing but its notes. -/
theorem Run.of_idle (hrun : Run patterns events c c') (hl : c.graph.Linked)
    (htrying : ∀ {op v rest}, c.trying = some (op, v, rest) →
      c.graph.op? op.id = some op ∧ rest <:+ Pattern.candidates patterns op)
    (hidle : ∀ o op, c.graph.op? o = some op → ∀ q ∈ Pattern.candidates patterns op, q.1.Idle op c.search.editor) :
    events.count .applied = 0 ∧ c'.search.editor = c.search.editor ∧ c'.search.log = c.search.log ∧
      ∀ {op v rest}, c'.trying = some (op, v, rest) →
        c'.graph.op? op.id = some op ∧ rest <:+ Pattern.candidates patterns op := by
  induction hrun with
  | stop => exact ⟨rfl, rfl, rfl, htrying⟩
  | @step e events c c₁ c' hfirst _ ih =>
    cases hfirst with
    | gone => exact ih hl nofun hidle
    | visit ho =>
      refine ih hl (fun heq => ?_) hidle
      cases heq
      exact ⟨(hl.opId ho).symm ▸ ho, List.suffix_refl _⟩
    | leave => exact ih hl nofun hidle
    | skip =>
      obtain ⟨ho, hsuffix⟩ := htrying rfl
      refine ih hl (fun heq => ?_) hidle
      cases heq
      exact ⟨ho, (List.suffix_cons ..).trans hsuffix⟩
    | fail _ hattempt =>
      obtain ⟨ho, hsuffix⟩ := htrying rfl
      cases (hidle _ _ ho _ (hsuffix.subset (List.mem_cons_self ..))).symm.trans hattempt
      refine ih hl (fun heq => ?_) hidle
      cases heq
      exact ⟨ho, (List.suffix_cons ..).trans hsuffix⟩
    | apply _ hattempt =>
      obtain ⟨ho, hsuffix⟩ := htrying rfl
      cases (hidle _ _ ho _ (hsuffix.subset (List.mem_cons_self ..))).symm.trans hattempt

omit hp in
/-- Where nothing applies, a call changes nothing. -/
theorem exhaust_of_idle {b : Build} (hl : b.graph.Linked) {work : List OpId} (hwork : b.graph.order = .ok work)
    (hidle : ∀ o op, b.graph.op? o = some op → ∀ q ∈ Pattern.candidates patterns op, q.1.Idle op { graph := b.graph })
    (budget : Nat) : (exhaust patterns budget).run b = (.ok 0, b) := by
  obtain ⟨events, c, hrun, hend⟩ := @exhaustFrom_run patterns budget work (.start b)
  obtain ⟨hcount, heditor, hlog, htrying⟩ := hrun.of_idle hl nofun hidle
  have hresult : c.search.result b = b := by
    rw [Search.result, heditor, hlog]
    rfl
  have hgraph : c.graph = b.graph := congrArg Editor.graph heditor
  rw [run_exhaust hwork]
  rcases hend with ⟨-, -, hend⟩ | ⟨f, s', hbreaks, -⟩ | ⟨hbudget, hend⟩
  · rw [hend, hcount]
    exact Prod.ext rfl hresult
  · -- the pattern at which the search broke off would have applied or failed
    cases hbreaks with
    | attempt _ hattempt =>
      obtain ⟨ho, hsuffix⟩ := htrying rfl
      have hno := hidle _ _ (hgraph ▸ ho) _ (hsuffix.subset (List.mem_cons_self ..))
      rw [Pattern.Idle, show ({ graph := b.graph } : Editor) = _ from heditor.symm] at hno
      cases hno.symm.trans hattempt
    | order _ hattempt =>
      obtain ⟨ho, hsuffix⟩ := htrying rfl
      have hno := hidle _ _ (hgraph ▸ ho) _ (hsuffix.subset (List.mem_cons_self ..))
      rw [Pattern.Idle, show ({ graph := b.graph } : Editor) = _ from heditor.symm] at hno
      cases hno.symm.trans hattempt
  · rw [hend, ← hbudget, hcount]
    exact Prod.ext rfl hresult

/-- At the end of a call whose budget was not used up no pattern applies anywhere. -/
theorem exhaust_idle {b b' : Build} {budget n : Nat} (h : b.graph.WellFormed) {work : List OpId}
    (hwork : b.graph.order = .ok work) (hrun : (exhaust patterns budget).run b = (.ok n, b')) (hn : n < budget) :
    b'.graph.Linked ∧ (∃ l, b'.graph.order = .ok l) ∧
      ∀ o op, b'.graph.op? o = some op → ∀ q ∈ Pattern.candidates patterns op, ∃ r, r.graph = b'.graph ∧ q.1.Idle op r := by
  have hvalid : Point.Valid patterns ⟨.start b, none, work⟩ := Point.valid_seeded h hwork
  obtain ⟨events, c, hsteps, hend⟩ := @exhaustFrom_run patterns budget work (.start b)
  have hc := (hsteps.weight_le hp hvalid).1
  have hsettled := hsteps.settled hp hvalid (Point.settled_seeded (Search.Honest.start b) h hwork)
  rw [run_exhaust hwork] at hrun
  rcases hend with ⟨htrying, hleft, hend⟩ | ⟨f, s', -, hend⟩ | ⟨-, hend⟩
  · rw [hend] at hrun
    cases hrun
    refine ⟨hc.wellFormed.linked, hsettled.ordered, fun o op ho q hq => ⟨c.search.editor, rfl, ?_⟩⟩
    have hvisited := (hsettled.settled ho).resolve_left (by rw [hleft]; exact List.not_mem_nil)
    exact (hvisited q hq).resolve_left fun ⟨_, _, hnone, _⟩ => by rw [htrying] at hnone; cases hnone
  · rw [hend] at hrun
    cases hrun
  · rw [hend] at hrun
    cases hrun
    exact absurd hn (Nat.lt_irrefl _)

end Settling

end Greedy

/-! ## After the removal of dead ops -/

namespace Graph

variable {g g' : Graph}

/-- Removing dead ops only restricts the graph. -/
theorem removeDead_restricts (hl : g.Linked) {n : Nat} (hrun : removeDead.run g = (.ok n, g')) :
    Restricts g g' ∧ g'.kept = g.kept := by
  replace hrun := Stateful.of_get_bind hrun
  obtain ⟨order, _, horder, hrun⟩ := Stateful.run_bind_ok.1 hrun
  rw [Stateful.run_lift, Prod.mk.injEq] at horder
  obtain ⟨-, rfl⟩ := horder
  obtain ⟨_, g₁, hops, hrun⟩ := Stateful.run_bind_ok.1 hrun
  replace hrun := Stateful.of_get_bind hrun
  obtain ⟨_, g₂, htensors, hrun⟩ := Stateful.run_bind_ok.1 hrun
  cases hrun
  have hfirst : Restricts g g₁ ∧ g₁.kept = g.kept := by
    refine Stateful.run_forM_keeps (fun cur => Restricts g cur ∧ cur.kept = g.kept) ?_ ⟨.refl hl, rfl⟩ hops
    rintro id - cur next ⟨hres, hkept⟩ hstep
    obtain ⟨removed, herase⟩ := run_change_discard_ok.1 hstep
    refine ⟨hres.trans (.eraseOp hres.linked herase), ?_⟩
    rw [(eraseOp_ok herase).1.frame]
    exact hkept
  refine Stateful.run_forM_keeps (fun cur => Restricts g cur ∧ cur.kept = g.kept) ?_ hfirst htensors
  rintro id - cur next ⟨hres, hkept⟩ hstep
  obtain ⟨x, hremove⟩ := run_change_discard_ok.1 hstep
  refine ⟨hres.trans (.removeTensor hres.linked hremove), ?_⟩
  obtain ⟨-, -, -, rfl⟩ := removeTensor_ok hremove
  exact hkept

/-- What surrounds an op of a restricted graph is what surrounded it before. -/
theorem Restricts.alikeAround (h : Restricts g g') (hkept : g'.kept = g.kept) {o : OpId} {op : Op}
    (ho : g'.op? o = some op) : Pattern.AlikeAround op g g' := by
  exact Editor.alikeAround_of_bare hkept fun t ht =>
    h.tensor_of_has (hasTensor_iff.2 (h.linked.hasTensor_of_mentioned ho ht))

end Graph

namespace Greedy

/-- Notes of failures never hide a place where a pattern applies. If greedy use of built-in patterns did not use up its
budget, then no pattern applies to any op that does not exclude it, whatever an editor may have counted, and using the
patterns once more, with no notes, changes nothing. -/
theorem run_leaves_fixed_point {patterns : List Pattern} {backend : Option Backend}
    (hp : ∀ p ∈ patterns, ∃ k : BuiltIn, k.pattern? backend = some p) {budget applied removed : Nat} {clean : Bool}
    {b b' : Build} (h : b.graph.WellFormed) (ha : b.graph.Acyclic)
    (hrun : (Greedy.run patterns budget clean).run b = (.ok (applied, removed), b')) (hn : applied < budget) :
    (∀ o op, b'.graph.op? o = some op → ∀ p ∈ patterns, op.excluded.contains p.name = false → p.applies op = true →
      ∀ versions, p.Idle op ⟨b'.graph, versions⟩) ∧
    ∀ budget', (exhaust patterns budget').run b' = (.ok 0, b') := by
  obtain ⟨work, hwork⟩ := ha.order_ok h.linked
  have hend : b'.graph.Linked ∧ (∃ l, b'.graph.order = .ok l) ∧ ∀ o op, b'.graph.op? o = some op →
      ∀ q ∈ Pattern.candidates patterns op, ∀ versions, q.1.Idle op ⟨b'.graph, versions⟩ := by
    unfold Greedy.run at hrun
    split at hrun
    · rename_i hempty
      cases hrun
      refine ⟨h.linked, ⟨work, hwork⟩, fun o op _ q hq => ?_⟩
      rw [List.isEmpty_iff.1 hempty] at hq
      cases hq
    · obtain ⟨n, b₁, hexhaust, hrun⟩ := Stateful.run_bind_ok.1 hrun
      have happlied : n = applied := by
        cases clean <;> (obtain ⟨m, b₂, -, hrun⟩ := Stateful.run_bind_ok.1 hrun; cases hrun; rfl)
      subst happlied
      obtain ⟨hl, ⟨l, hl₁⟩, hidle⟩ := exhaust_idle hp h hwork hexhaust hn
      -- a pattern that does not apply before the removal of dead ops does not apply after it
      have hstays : ∀ {g : Graph}, Restricts b₁.graph g → g.kept = b₁.graph.kept → ∀ o op, g.op? o = some op →
          ∀ q ∈ Pattern.candidates patterns op, ∀ versions, q.1.Idle op ⟨g, versions⟩ := by
        intro g hres hkept o op ho q hq versions
        obtain ⟨hmem, happ⟩ := mem_candidates hq
        obtain ⟨k, hk⟩ := hp q.1 hmem
        obtain ⟨r, hr, hno⟩ := hidle o op (hres.op ho) q hq
        exact BuiltIn.looks hk happ hno (hr.symm ▸ hres.alikeAround hkept ho)
      cases clean with
      | false =>
        cases hrun
        exact ⟨hl, ⟨l, hl₁⟩, hstays (.refl hl) rfl⟩
      | true =>
        obtain ⟨m, b₂, hclean, hrun⟩ := Stateful.run_bind_ok.1 hrun
        cases hrun
        obtain ⟨hres, hkept⟩ := removeDead_restricts hl (Pass.run_onGraph_ok hclean)
        have hacyclic := (order_complete hl hl₁).acyclic.of_feeds fun hf => .single (hres.feeds hf)
        exact ⟨hres.linked, hacyclic.order_ok hres.linked, hstays hres hkept⟩
  obtain ⟨hl, ⟨l, hl₁⟩, hidle⟩ := hend
  refine ⟨fun o op ho p hmem hexcluded happ versions => ?_, fun budget' => ?_⟩
  · obtain ⟨i, hi⟩ := List.mem_iff_getElem?.1 hmem
    refine hidle o op ho (p, i) (List.mem_filter.2 ⟨List.mem_zipIdx_iff_getElem?.2 hi, ?_⟩) versions
    change (!op.excluded.contains p.name && p.applies op) = true
    rw [hexcluded, happ]
    rfl
  · exact exhaust_of_idle hl hl₁ (fun o op ho q hq => hidle o op ho q hq .empty) budget'

/-- The quotient is left with an identity whose result is to be kept, to which no pattern applies. -/
theorem run_leaves_fixed_point_quotient : ∃ b', (Greedy.run plainPatterns 10 true).run ⟨quotient, []⟩ = (.ok (4, 0), b') ∧
    (b'.graph.ops.values.map (·.kind)).contains .identity = true ∧
    ∀ budget, (exhaust plainPatterns budget).run b' = (.ok 0, b') := by
  have hrun : ((Greedy.run plainPatterns 10 true).run ⟨quotient, []⟩).1 = .ok (4, 0) := by decide +kernel
  have hfixed := run_leaves_fixed_point builtIn_of_plain quotient_wellFormed quotient_acyclic
    (Stateful.eq_ok_of_fst hrun) (by decide)
  exact ⟨_, Stateful.eq_ok_of_fst hrun, by decide +kernel, hfixed.2⟩

end Greedy

end TensorGraph
