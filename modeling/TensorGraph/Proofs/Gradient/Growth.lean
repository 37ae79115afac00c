import TensorGraph.Gradient.Synthesis
import TensorGraph.Proofs.Gradient.Emission

/-!
How a graph grows while gradients are added to it. Ops and tensors of the start keep their place; what waits for its
sum is computed, by ops that were added, and each gradient waits once. Only gradients that wait are ever renamed.
-/
namespace TensorGraph

open TensorGraph.Graph

/-! ## Growth of graphs -/

namespace Graph

variable {G g g' : Graph} {kind : OpKind} {inputs : List TensorId} {output t : TensorId} {info : TensorInfo}

/-- The graph `g` came from `G` by adding ops. A computed tensor that had no producer may have got one. -/
structure Grows (G g : Graph) : Prop where
  linked : g.Linked
  numbered : g.Numbered
  nextOp_le : G.nextOp ≤ g.nextOp
  ops : ∀ {o op}, G.op? o = some op →
    ∃ op', g.op? o = some op' ∧ op'.kind = op.kind ∧ op'.inputs = op.inputs ∧ op'.outputs = op.outputs
  tensors : ∀ {t x}, G.tensor? t = some x → ∃ x', g.tensor? t = some x' ∧ x'.type = x.type ∧
    (x.type ≠ .actGrad ∨ x.producer ≠ none → x'.info = x.info ∧ x'.producer = x.producer) ∧
    ∀ o, x'.producer = some o → x.producer = some o ∨ G.nextOp ≤ o
  types : ∀ {t x}, g.tensor? t = some x → x.type ≠ .actGrad → G.hasTensor t = true

namespace Grows

theorem refl (hl : G.Linked) (hn : G.Numbered) : Grows G G where
  linked := hl
  numbered := hn
  nextOp_le := Nat.le_refl _
  ops ho := ⟨_, ho, rfl, rfl, rfl⟩
  tensors hx := ⟨_, hx, rfl, fun _ => ⟨rfl, rfl⟩, fun _ => .inl⟩
  types hx _ := hasTensor_iff.2 ⟨_, hx⟩

/-- Adding an op. -/
theorem added (h : Grows G g) (ha : Added g kind inputs output info g') : Grows G g' where
  linked := ha.linked
  numbered := ha.numbered h.numbered
  nextOp_le := by
    rw [ha.nextOp_eq]
    exact Nat.le_succ_of_le h.nextOp_le
  ops {o op} ho := by
    obtain ⟨op', ho', hop'⟩ := h.ops ho
    exact ⟨op', by rw [ha.others o (Nat.ne_of_lt (h.numbered o op' ho')), ho'], hop'⟩
  tensors {t x} hx := by
    obtain ⟨y, hy, htype, hkeep, hproducer⟩ := h.tensors hx
    by_cases ht : t = output
    · -- the result stood free, so nothing is promised of it
      subst ht
      obtain ⟨hnone, hgrad⟩ := isFree_iff.1 ha.free y hy
      obtain ⟨z, hz, hzp, -, hzt⟩ := ha.result
      refine ⟨z, hz, hzt.trans (hgrad.symm.trans htype), fun hcase => ?_, fun o ho => ?_⟩
      · rcases hcase with hne | hne
        · exact absurd (htype.symm.trans hgrad) hne
        · exact absurd ((hkeep (.inr hne)).2.symm.trans hnone) hne
      · rw [hzp, Option.some.injEq] at ho
        exact .inr (ho ▸ h.nextOp_le)
    · obtain ⟨z, hz, hzt, hzi, hzp⟩ := ha.lookup ht hy
      refine ⟨z, hz, hzt.trans htype, fun hcase => ?_, fun o ho => hproducer o (hzp.symm.trans ho)⟩
      exact ⟨hzi.trans (hkeep hcase).1, hzp.trans (hkeep hcase).2⟩
  types {t x} hx hne := by
    by_cases ht : t = output
    · subst ht
      obtain ⟨z, hz, -, -, hzt⟩ := ha.result
      cases hx.symm.trans hz
      exact absurd hzt hne
    · obtain ⟨y, hy, hsame⟩ := lookup_of_bare (ha.bare_eq t ht).symm hx
      exact h.types hy (hsame.type ▸ hne)

/-- Renaming a tensor that was added. -/
theorem renamed {old new : TensorId} {x : Tensor} (h : Grows G g) (hG : G.Linked) (hr : Renamed g old new x g')
    (hold : G.tensor? old = none) (hgrad : x.type = .actGrad) : Grows G g' where
  linked := h.linked.rename hr
  numbered := by
    intro o op ho
    rw [hr.op?_eq] at ho
    obtain ⟨op', ho', -⟩ := Option.map_eq_some_iff.1 ho
    rw [hr.nextOp_eq]
    exact h.numbered o op' ho'
  nextOp_le := by
    rw [hr.nextOp_eq]
    exact h.nextOp_le
  ops {o op} ho := by
    obtain ⟨op', ho', hkind, hin, hout⟩ := h.ops ho
    refine ⟨Graph.rename old new op', by rw [hr.op?_eq, ho']; rfl, hkind, ?_, ?_⟩
    · change substitute old new op'.inputs = _
      rw [hin, substitute_of_not_mem fun hmem => hG.not_mentioned hold ho (.inl hmem)]
    · change substitute old new op'.outputs = _
      rw [hout, substitute_of_not_mem fun hmem => hG.not_mentioned hold ho (.inr hmem)]
  tensors {t y} hy := by
    obtain ⟨z, hz, hrest⟩ := h.tensors hy
    refine ⟨z, hr.tensor?_other hz ?_, hrest⟩
    rintro rfl
    cases hold.symm.trans hy
  types {t y} hy hne := by
    rw [hr.tensor?_eq] at hy
    split at hy
    · cases hy
      exact absurd hgrad hne
    · split at hy
      · cases hy
      · exact h.types hy hne

/-- A tensor of the start that is a weight or was computed keeps its info. -/
theorem info?_eq (h : Grows G g) {x : Tensor} (hx : G.tensor? t = some x)
    (hcase : x.type ≠ .actGrad ∨ x.producer ≠ none) : g.info? t = G.info? t := by
  obtain ⟨y, hy, -, hkeep, -⟩ := h.tensors hx
  rw [info?, info?, hx, hy, Option.map_some, Option.map_some, (hkeep hcase).1]

theorem producer?_eq (h : Grows G g) {o : OpId} (hp : G.producer? t = some o) : g.producer? t = some o := by
  obtain ⟨x, hx, hxp⟩ := producer?_eq_some.1 hp
  obtain ⟨y, hy, -, hkeep, -⟩ := h.tensors hx
  refine producer?_eq_some.2 ⟨y, hy, ?_⟩
  rw [(hkeep (.inr (by rw [hxp]; exact nofun))).2, hxp]

theorem hasTensor (h : Grows G g) (ht : G.hasTensor t = true) : g.hasTensor t = true := by
  obtain ⟨x, hx⟩ := hasTensor_iff.1 ht
  obtain ⟨y, hy, -⟩ := h.tensors hx
  exact hasTensor_iff.2 ⟨y, hy⟩

/-- Whether a tensor of the start needs a gradient does not depend on what was added. -/
theorem needsGrad_eq (h : Grows G g) {relevant : SortedSet OpId} (hrel : ∀ o ∈ relevant, o < G.nextOp)
    (ht : G.hasTensor t = true) : Synthesis.needsGrad g relevant t = Synthesis.needsGrad G relevant t := by
  obtain ⟨x, hx⟩ := hasTensor_iff.1 ht
  obtain ⟨y, hy, htype, hkeep, hproducer⟩ := h.tensors hx
  have hany : y.producer.any relevant.contains = x.producer.any relevant.contains := by
    cases hxp : x.producer with
    | some o => rw [(hkeep (.inr (by rw [hxp]; exact nofun))).2, hxp]
    | none =>
      cases hyp : y.producer with
      | none => rfl
      | some o =>
        rcases hproducer o hyp with hsome | hle
        · rw [hxp] at hsome
          cases hsome
        · rw [Option.any_some, Option.any_none, ← Bool.not_eq_true]
          intro hc
          exact absurd (hrel o (SortedSet.contains_iff.1 hc)) (Nat.not_lt.2 hle)
  rw [Synthesis.needsGrad, Synthesis.needsGrad, hx, hy, Option.any_some, Option.any_some, htype, hany]

end Grows

end Graph

/-! ## Gradients that wait -/

namespace Synthesis

variable {s s' s'' : Synthesis} {t p : TensorId}

/-- The gradients that wait for their sum, each after the tensor that it is for. -/
def waiting (s : Synthesis) : List (TensorId × TensorId) :=
  s.partials.entries.flatMap fun (t, l) => l.map fun p => (t, p.tensor)

/-- The gradients that wait for one tensor come off. -/
theorem waiting_perm (s : Synthesis) (t : TensorId) :
    s.waiting.Perm (((s.partials.get? t).getD []).map (fun p => (t, p.tensor)) ++
      waiting { s with partials := s.partials.erase t }) := by
  cases h : s.partials.get? t with
  | none => rw [Dict.erase_of_get?_eq_none h, Option.getD_none, List.map_nil, List.nil_append]
  | some l => exact (Dict.perm_of_get? h).flatMap_right _

theorem mem_waiting {q : Partial} (hq : q ∈ (s.partials.get? t).getD []) : (t, q.tensor) ∈ s.waiting :=
  (waiting_perm s t).mem_iff.2 (List.mem_append_left _ (List.mem_map.2 ⟨q, hq, rfl⟩))

theorem get?_of_waiting (h : (t, p) ∈ s.waiting) : ∃ l, s.partials.get? t = some l ∧ l ≠ [] := by
  obtain ⟨⟨t', l⟩, he, hp⟩ := List.mem_flatMap.1 h
  obtain ⟨q, hq, heq⟩ := List.mem_map.1 hp
  cases heq
  exact ⟨l, Dict.get?_eq_some_iff.2 he, List.ne_nil_of_mem hq⟩

theorem not_waiting_of_erase (h : s'.partials = s.partials.erase t) {t' : TensorId} (hp : (t', p) ∈ s'.waiting) :
    t' ≠ t := by
  rintro rfl
  obtain ⟨l, hl, -⟩ := get?_of_waiting hp
  rw [h, Dict.get?_erase, if_pos rfl] at hl
  cases hl

theorem waiting_note (s : Synthesis) (t : TensorId) (p : Partial) :
    (s.note t p).waiting.Perm ((t, p.tensor) :: s.waiting) := by
  have hnote := waiting_perm (s.note t p) t
  have herase : (s.note t p).partials.erase t = s.partials.erase t := Dict.erase_insert ..
  have hget : (s.note t p).partials.get? t = some ((s.partials.get? t).getD [] ++ [p]) := by
    rw [note, Dict.get?_insert, if_pos rfl]
  rw [hget, Option.getD_some, List.map_append, List.append_assoc] at hnote
  have hs := waiting_perm s t
  refine hnote.trans ((List.perm_middle).trans (List.Perm.cons _ ?_))
  change (List.map _ _ ++ waiting { s with partials := (s.note t p).partials.erase t }).Perm _
  rw [herase]
  exact hs.symm

/-- The gradients that an op gives for its operands, each after its operand. -/
def given (inputs : List TensorId) (gradients : List (Option TensorId)) : List (TensorId × TensorId) :=
  (inputs.zip gradients).filterMap fun (i, gradient) => gradient.map (i, ·)

/-- Notes gradients, the first of which is for operand number `k`. -/
def noteAll (id : OpId) (l : List (TensorId × Option TensorId)) (k : Nat) (s : Synthesis) : Synthesis :=
  (l.zipIdx k).foldl (fun s ((t, gradient), i) => gradient.elim s fun p => s.note t ⟨id, i, p⟩) s

/-- All gradients of an op are noted, and nothing else changes. -/
theorem waiting_noteAll (id : OpId) : ∀ (l : List (TensorId × Option TensorId)) (k : Nat) (s : Synthesis),
    (noteAll id l k s).graph = s.graph ∧
      (noteAll id l k s).waiting.Perm (l.filterMap (fun (t, gradient) => gradient.map (t, ·)) ++ s.waiting)
  | [], _, s => ⟨rfl, .refl _⟩
  | (t, none) :: l, k, s => waiting_noteAll id l (k + 1) s
  | (t, some p) :: l, k, s => by
    obtain ⟨hgraph, hperm⟩ := waiting_noteAll id l (k + 1) (s.note t ⟨id, k, p⟩)
    refine ⟨hgraph, hperm.trans ?_⟩
    exact ((waiting_note s t ⟨id, k, p⟩).append_left _).trans List.perm_middle

/-! ## The invariant -/

/-- The second info has the shape of the first one. -/
abbrev SameShape (i j : TensorInfo) : Prop := j.shape = i.shape

/-- What waits was added: it is the result of an op, and its info goes with that of the tensor that it is a gradient
for. -/
structure Grown (R : TensorInfo → TensorInfo → Prop) (G : Graph) (s : Synthesis) : Prop where
  grows : Grows G s.graph
  waits : ∀ {t p}, (t, p) ∈ s.waiting → G.tensor? p = none ∧ (∃ o, s.graph.producer? p = some o) ∧
    ∃ i j, G.info? t = some i ∧ s.graph.info? p = some j ∧ R i j
  nodup : (s.waiting.map Prod.snd).Nodup

/-- The state `s'` comes after `s`, and `φ` gives the later names of the tensors of `s`. Only gradients that wait get
another name, and what does not wait never will. -/
structure Carries (φ : TensorId → TensorId) (s s' : Synthesis) : Prop where
  embeds : Embeds φ s.graph s'.graph
  fixed : ∀ {t}, s.graph.hasTensor t = true → t ∉ s.waiting.map Prod.snd →
    φ t = t ∧ s'.graph.hasTensor t = true ∧ t ∉ s'.waiting.map Prod.snd

namespace Carries

variable {φ ψ : TensorId → TensorId}

theorem refl (s : Synthesis) : Carries id s s := ⟨.refl _, fun ht hw => ⟨rfl, ht, hw⟩⟩

theorem trans (h : Carries φ s s') (h' : Carries ψ s' s'') : Carries (ψ ∘ φ) s s'' := by
  refine ⟨h.embeds.trans h'.embeds, fun ht hw => ?_⟩
  obtain ⟨hφ, ht', hw'⟩ := h.fixed ht hw
  obtain ⟨hψ, ht'', hw''⟩ := h'.fixed ht' hw'
  exact ⟨by rw [Function.comp, hφ, hψ], ht'', hw''⟩

end Carries

namespace Grown

variable {R : TensorInfo → TensorInfo → Prop} {G : Graph} {l : List (TensorId × TensorId)} {kind : OpKind}
  {inputs : List TensorId} {output : TensorId} {info : TensorInfo}

/-- Less may wait than before, if what waits is still produced with the same info. -/
theorem fewer (h : Grown R G s) (hg : Grows G s'.graph) (hw : s.waiting.Perm (l ++ s'.waiting))
    (hkeep : ∀ {p o}, p ∈ s'.waiting.map Prod.snd → s.graph.producer? p = some o →
      s'.graph.producer? p = some o ∧ s'.graph.info? p = s.graph.info? p) : Grown R G s' := by
  refine ⟨hg, fun {t p} hp => ?_, ?_⟩
  · obtain ⟨hnew, ⟨o, ho⟩, i, j, hi, hj, hgoes⟩ := h.waits (hw.mem_iff.2 (List.mem_append_right _ hp))
    obtain ⟨hproducer, hinfo⟩ := hkeep (List.mem_map.2 ⟨_, hp, rfl⟩) ho
    exact ⟨hnew, ⟨o, hproducer⟩, i, j, hi, hinfo.trans hj, hgoes⟩
  · have hnodup := (hw.map Prod.snd).nodup_iff.1 h.nodup
    rw [List.map_append] at hnodup
    exact hnodup.of_append_right

/-- What waits has a tensor. -/
theorem hasTensor (h : Grown R G s) (hp : p ∈ s.waiting.map Prod.snd) : ∃ o, s.graph.producer? p = some o := by
  obtain ⟨⟨t, p'⟩, hp', rfl⟩ := List.mem_map.1 hp
  exact (h.waits hp').2.1

/-- An op is added, and what waits stays or gets less. -/
theorem added (h : Grown R G s) (ha : Added s.graph kind inputs output info s'.graph)
    (hw : s.waiting.Perm (l ++ s'.waiting)) :
    Grown R G s' ∧ Carries id s s' ∧ output ∉ s'.waiting.map Prod.snd := by
  have hsub : ∀ {p}, p ∈ s'.waiting.map Prod.snd → p ∈ s.waiting.map Prod.snd := by
    intro p hp
    rw [(hw.map Prod.snd).mem_iff, List.map_append]
    exact List.mem_append_right _ hp
  refine ⟨h.fewer (h.grows.added ha) hw fun _ => ha.keeps, ⟨ha.embeds h.grows.numbered, ?_⟩, fun hp => ?_⟩
  · exact fun ht hnot => ⟨rfl, ha.hasTensor ht, fun hp => hnot (hsub hp)⟩
  · obtain ⟨o, ho⟩ := h.hasTensor (hsub hp)
    obtain ⟨x, hx, hxp⟩ := producer?_eq_some.1 ho
    rw [(isFree_iff.1 ha.free x hx).1] at hxp
    cases hxp

/-- A gradient gets another name, and does not wait any more. -/
theorem renamed {old new : TensorId} {x : Tensor} (h : Grown R G s) (hG : G.Linked)
    (hr : Renamed s.graph old new x s'.graph) (hw : s.waiting.Perm ((t, old) :: s'.waiting)) :
    Grown R G s' ∧ Carries (fun i => if i = old then new else i) s s' ∧ new ∉ s'.waiting.map Prod.snd ∧
      old ∉ s'.waiting.map Prod.snd := by
  have hold : (t, old) ∈ s.waiting := hw.mem_iff.2 (by simp)
  have hnodup := (hw.map Prod.snd).nodup_iff.1 h.nodup
  rw [List.map_cons, List.nodup_cons] at hnodup
  have hsub : ∀ {p}, p ∈ s'.waiting.map Prod.snd → p ∈ s.waiting.map Prod.snd := by
    intro p hp
    rw [(hw.map Prod.snd).mem_iff, List.map_cons]
    exact List.mem_cons_of_mem _ hp
  have hgrad : x.type = .actGrad := by
    by_contra hne
    have hG := h.grows.types hr.found hne
    rw [hasTensor_iff, (h.waits hold).1] at hG
    obtain ⟨y, hy⟩ := hG
    cases hy
  refine ⟨h.fewer (l := [(t, old)]) (h.grows.renamed hG hr (h.waits hold).1 hgrad) hw fun {p o} hp ho => ?_,
    ⟨hr.embeds, fun {i} hi hnot => ?_⟩, fun hp => ?_, hnodup.1⟩
  · obtain ⟨y, hy, hyp⟩ := producer?_eq_some.1 ho
    have hy' := hr.tensor?_other hy fun e => hnodup.1 (e ▸ hp)
    refine ⟨producer?_eq_some.2 ⟨y, hy', hyp⟩, ?_⟩
    rw [info?, info?, hy', hy]
  · obtain ⟨y, hy⟩ := hasTensor_iff.1 hi
    have hne : i ≠ old := by
      rintro rfl
      exact hnot (List.mem_map.2 ⟨_, hold, rfl⟩)
    exact ⟨if_neg hne, hasTensor_iff.2 ⟨y, hr.tensor?_other hy hne⟩, fun hp => hnot (hsub hp)⟩
  · obtain ⟨o, ho⟩ := h.hasTensor (hsub hp)
    obtain ⟨y, hy, -⟩ := producer?_eq_some.1 ho
    exact hr.ne_new hy rfl

/-- Ops are added under fresh names. -/
theorem emits (h : Grown R G s) {owner : Op} {l : List TensorId} (he : Emits owner l s s') :
    Grown R G s' ∧ Embeds id s.graph s'.graph ∧ s'.waiting = s.waiting ∧ l.Nodup ∧
      (∀ {t}, s.graph.hasTensor t = true → s'.graph.hasTensor t = true) ∧
      ∀ p ∈ l, s.graph.tensor? p = none ∧ ∃ o, s'.graph.producer? p = some o := by
  induction he with
  | nil s => exact ⟨h, .refl _, rfl, .nil, id, nofun⟩
  | @cons kind inputs base t l s s₁ s' hadd hl ih =>
    obtain ⟨hfresh, hpartials, info, ha⟩ := GradM.addFresh_ok h.grows.linked h.grows.numbered hadd
    have hwaiting : s₁.waiting = s.waiting := by rw [waiting, waiting, hpartials]
    obtain ⟨hgrown, -, -⟩ := h.added (l := []) ha (hwaiting ▸ .refl _)
    obtain ⟨hgrown', hembeds, hwaiting', hnodup, hmono, hnew⟩ := ih hgrown
    obtain ⟨x, hx, hxp, -⟩ := ha.result
    refine ⟨hgrown', (ha.embeds h.grows.numbered).trans hembeds, hwaiting'.trans hwaiting,
      List.nodup_cons.2 ⟨fun ht => ?_, hnodup⟩, fun ht => hmono (ha.hasTensor ht), fun p hp => ?_⟩
    · have hnone := (hnew t ht).1
      rw [hx] at hnone
      cases hnone
    · rcases List.mem_cons.1 hp with rfl | hp
      · obtain ⟨op, ho, -⟩ := ha.found
        obtain ⟨op', hproducer, -⟩ := hembeds.op (producer?_eq_some.2 ⟨x, hx, hxp⟩) ho
        exact ⟨hfresh, _, hproducer⟩
      · refine ⟨?_, (hnew p hp).2⟩
        rw [← hasTensor_eq_false_iff, ← Bool.not_eq_true]
        intro hs
        obtain ⟨y, hy⟩ := hasTensor_iff.1 (ha.hasTensor hs)
        rw [(hnew p hp).1] at hy
        cases hy

/-- Some of the results of ops that were added under fresh names start to wait. -/
theorem noted (h : Grown R G s) {owner : Op} {l : List TensorId} {m : List (TensorId × TensorId)}
    (he : Emits owner l s s') (hg : s''.graph = s'.graph) (hw : s''.waiting.Perm (m ++ s'.waiting))
    (hm : (m.map Prod.snd).Sublist l)
    (hgoes : ∀ {t p}, (t, p) ∈ m → ∃ i j, G.info? t = some i ∧ s'.graph.info? p = some j ∧ R i j) :
    Grown R G s'' ∧ Carries id s s'' ∧ s''.waiting.Perm (m ++ s.waiting) := by
  obtain ⟨hgrown, hembeds, hwaiting, hnodup, hmono, hnew⟩ := h.emits he
  have hmem : ∀ {p}, p ∈ s''.waiting.map Prod.snd ↔ p ∈ m.map Prod.snd ∨ p ∈ s.waiting.map Prod.snd := by
    intro p
    rw [(hw.map Prod.snd).mem_iff, List.map_append, List.mem_append, hwaiting]
  have hapart : ∀ {p}, p ∈ m.map Prod.snd → s.graph.hasTensor p = false :=
    fun hp => hasTensor_eq_false_iff.2 (hnew _ (hm.subset hp)).1
  refine ⟨⟨hg ▸ hgrown.grows, fun {t p} hp => ?_, ?_⟩, ⟨hg ▸ hembeds, fun {t} ht hnot => ?_⟩, hwaiting ▸ hw⟩
  · rw [hg]
    rcases List.mem_append.1 (hw.mem_iff.1 hp) with hp | hp
    · have hl := hm.subset (List.mem_map.2 ⟨_, hp, rfl⟩)
      refine ⟨?_, (hnew p hl).2, hgoes hp⟩
      rw [← hasTensor_eq_false_iff, ← Bool.not_eq_true]
      intro hG
      have hs := hasTensor_eq_false_iff.2 (hnew p hl).1
      rw [h.grows.hasTensor hG] at hs
      cases hs
    · exact hgrown.waits hp
  · rw [(hw.map Prod.snd).nodup_iff, List.map_append, List.nodup_append', hwaiting]
    refine ⟨hm.nodup hnodup, h.nodup, fun p hp hs => ?_⟩
    obtain ⟨o, ho⟩ := h.hasTensor hs
    obtain ⟨x, hx, -⟩ := producer?_eq_some.1 ho
    have hfalse := hapart hp
    rw [hasTensor_iff.2 ⟨x, hx⟩] at hfalse
    cases hfalse
  · refine ⟨rfl, hg ▸ hmono ht, fun hp => ?_⟩
    rcases hmem.1 hp with hp | hp
    · rw [hapart hp] at ht
      cases ht
    · exact hnot hp

end Grown

/-! ## Sums of gradients -/

/-- How the gradients for a tensor become one: there are none, a single one takes another name, or they are added. -/
inductive Settled (t : TensorId) (s s' : Synthesis) : Option TensorId → Prop
  | none (hl : (s.partials.get? t).getD [] = []) (hg : s'.graph = s.graph) : Settled t s s' none
  | single {one : Partial} {x : Tensor} (hl : (s.partials.get? t).getD [] = [one])
      (hr : Renamed s.graph one.tensor (gradId t) x s'.graph) : Settled t s s' (some (gradId t))
  | several {many : List Partial} {info : TensorInfo} (hl : many.Perm ((s.partials.get? t).getD []))
      (hlen : 2 ≤ many.length) (ha : Added s.graph .sum (many.map (·.tensor)) (gradId t) info s'.graph) :
      Settled t s s' (some (gradId t))

theorem Settled.name_eq {name : TensorId} (h : Settled t s s' (some name)) : name = gradId t := by
  cases h <;> rfl

/-- Some gradient waits before there is a sum of gradients. -/
theorem Settled.exists_mem {name : TensorId} (h : Settled t s s' (some name)) :
    ∃ q, q ∈ (s.partials.get? t).getD [] := by
  cases h with
  | @single one _ hl _ => exact ⟨one, by rw [hl]; exact List.mem_singleton_self one⟩
  | several hl hlen _ =>
    obtain ⟨q, hq⟩ := List.exists_mem_of_length_pos (Nat.lt_of_lt_of_le Nat.zero_lt_two hlen)
    exact ⟨q, hl.mem_iff.1 hq⟩

/-- The three ways that a sum of gradients can go. -/
theorem settle_cases {owner : Op} {result : Option TensorId} (h : (settle t owner).run s = (.ok result, s')) :
    ((s.partials.get? t).getD [] = [] ∧ result = none ∧ s' = { s with partials := s.partials.erase t }) ∨
      result = some (gradId t) ∧
        ((∃ one g', (s.partials.get? t).getD [] = [one] ∧ s.graph.renameTensor one.tensor (gradId t) = .ok g' ∧
            s' = { s with graph := g', partials := s.partials.erase t }) ∨
          ∃ many : List Partial, many.Perm ((s.partials.get? t).getD []) ∧ 2 ≤ many.length ∧
            (GradM.addOp owner .sum (many.map (·.tensor)) (gradId t)).run { s with partials := s.partials.erase t } =
              (.ok (), s')) := by
  have hperm := List.mergeSort_perm ((s.partials.get? t).getD []) inOrder
  replace h := Stateful.of_get_bind h
  obtain ⟨_, s₂, hset, h⟩ := Stateful.run_bind_ok.1 h
  cases hset
  split at h
  · rename_i hnil
    rw [hnil] at hperm
    cases h
    exact .inl ⟨List.nil_perm.1 hperm, rfl, rfl⟩
  · rename_i one hone
    rw [hone] at hperm
    obtain ⟨_, s₃, hrename, h⟩ := Stateful.run_bind_ok.1 h
    cases h
    obtain ⟨g', hg', rfl⟩ := GradM.run_onGraph_ok hrename
    obtain ⟨g'', hg'', hpure⟩ := Outcome.bind_eq_ok.1 (Stateful.run_change_ok.1 hg')
    cases hpure
    exact .inr ⟨rfl, .inl ⟨one, g', (List.singleton_perm.1 hperm).symm, hg'', rfl⟩⟩
  · rename_i hnil hone
    obtain ⟨_, s₃, hadd, h⟩ := Stateful.run_bind_ok.1 h
    cases h
    refine .inr ⟨rfl, .inr ⟨_, hperm, ?_, hadd⟩⟩
    match List.mergeSort ((s.partials.get? t).getD []) inOrder, hnil, hone with
    | [], hnil, _ => exact absurd rfl hnil
    | [one], _, hone => exact absurd rfl (hone one)
    | _ :: _ :: _, _, _ => exact Nat.le_add_left 2 _

theorem settle_ok {owner : Op} {result : Option TensorId} (hl : s.graph.Linked) (hn : s.graph.Numbered)
    (h : (settle t owner).run s = (.ok result, s')) :
    s'.partials = s.partials.erase t ∧ Settled t s s' result := by
  rcases settle_cases h with ⟨hnil, rfl, rfl⟩ | ⟨rfl, ⟨one, g', hone, hrename, rfl⟩ | ⟨many, hperm, hlen, hadd⟩⟩
  · exact ⟨rfl, .none hnil rfl⟩
  · obtain ⟨x, hr⟩ := renameTensor_ok hl hrename
    exact ⟨rfl, .single hone hr⟩
  · obtain ⟨hpartials, info, ha⟩ := GradM.addOp_ok (s := { s with partials := s.partials.erase t }) hl hn hadd
    exact ⟨hpartials, .several hperm hlen ha⟩

/-- The later names of tensors when the gradients for `t` become one. -/
def laterName (s : Synthesis) (t : TensorId) : TensorId → TensorId :=
  match (s.partials.get? t).getD [] with
  | [one] => fun i => if i = one.tensor then gradId t else i
  | _ => id

namespace Settled

variable {R : TensorInfo → TensorInfo → Prop} {G : Graph} {result : Option TensorId}

theorem laterName_single {one : Partial} (hl : (s.partials.get? t).getD [] = [one]) :
    s.laterName t = fun i => if i = one.tensor then gradId t else i := by
  unfold laterName
  rw [hl]

theorem laterName_several {many : List Partial} (hl : many.Perm ((s.partials.get? t).getD []))
    (hlen : 2 ≤ many.length) : s.laterName t = id := by
  unfold laterName
  rw [hl.length_eq] at hlen
  match (s.partials.get? t).getD [], hlen with
  | _ :: _ :: _, _ => rfl

/-- What follows for the state: nothing waits for the tensor any more, and what else waits keeps its name. -/
theorem grown (hs : Settled t s s' result) (hG : G.Linked) (h : Grown R G s)
    (hp : s'.partials = s.partials.erase t) :
    Grown R G s' ∧ Carries (s.laterName t) s s' ∧
      s.waiting.Perm (((s.partials.get? t).getD []).map (fun p => (t, p.tensor)) ++ s'.waiting) ∧
      (∀ p ∈ s'.waiting.map Prod.snd, s.laterName t p = p) ∧
      ∀ name, result = some name → s'.graph.hasTensor name = true ∧ name ∉ s'.waiting.map Prod.snd := by
  have hw : s.waiting.Perm (((s.partials.get? t).getD []).map (fun p => (t, p.tensor)) ++ s'.waiting) := by
    rw [show s'.waiting = waiting { s with partials := s.partials.erase t } by rw [waiting, hp]; rfl]
    exact waiting_perm s t
  cases hs with
  | none hl hg =>
    rw [hl, List.map_nil, List.nil_append] at hw
    have hname : s.laterName t = id := by
      unfold laterName
      rw [hl]
    rw [hl, hname]
    refine ⟨h.fewer (l := []) (hg ▸ h.grows) hw fun _ ho => ?_, ⟨hg ▸ .refl _, fun ht hnot => ?_⟩, hw, fun _ _ => rfl,
      nofun⟩
    · rw [hg]
      exact ⟨ho, rfl⟩
    · exact ⟨rfl, hg ▸ ht, fun hp => hnot ((hw.map Prod.snd).mem_iff.2 hp)⟩
  | @single one x hl hr =>
    rw [hl] at hw
    obtain ⟨hgrown, hcarries, hnew, hold⟩ := h.renamed hG hr hw
    rw [laterName_single hl, hl]
    refine ⟨hgrown, hcarries, hw, fun p hp => if_neg ?_, ?_⟩
    · rintro rfl
      exact hold hp
    · rintro name hname
      cases hname
      exact ⟨hasTensor_iff.2 ⟨_, by rw [hr.tensor?_eq, if_pos rfl]⟩, hnew⟩
  | several hl hlen ha =>
    obtain ⟨hgrown, hcarries, hnew⟩ := h.added ha hw
    rw [laterName_several hl hlen]
    refine ⟨hgrown, hcarries, hw, fun _ _ => rfl, ?_⟩
    rintro name hname
    cases hname
    exact ⟨ha.hasTensor_output, hnew⟩

end Settled

end Synthesis

end TensorGraph
