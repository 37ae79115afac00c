import TensorGraph.Graph.DeadOps
import TensorGraph.Proofs.Graph.Meaning
import TensorGraph.Proofs.Graph.Order
import TensorGraph.Proofs.Graph.Reach
import TensorGraph.Proofs.Graph.WellFormed

/-!
The removal of dead ops is exact. Feeds lead from an op that is live to the producer of a tensor that is needed in
itself, so what feeds a live op is live, and a dead op feeds only dead ops. These stand behind it in the order and are
erased before it, so that nothing consumes a result when its turn comes. What is left is the live ops with all that is
connected to them, beside the tensors that are no constants and not computed, and removing dead ops again finds none.
-/
namespace TensorGraph

namespace Graph

variable {g g' : Graph} {o p q : OpId} {t : TensorId} {op : Op}

/-! ## Live ops -/

/-- From a result of the op, through the ops that read it and their results, a tensor to be kept or an updated weight is
reached. -/
def Needed (g : Graph) (o : OpId) : Prop :=
  ∃ r op t, g.op? r = some op ∧ t ∈ op.outputs ∧ (t ∈ g.kept ∨ op.kind = .sgdVarUpdate) ∧
    Relation.ReflTransGen g.Feeds o r

theorem Needed.of_feeds (h : g.Needed q) (hf : g.Feeds p q) : g.Needed p := by
  obtain ⟨r, op, t, hr, ht, hroot, hqr⟩ := h
  exact ⟨r, op, t, hr, ht, hroot, .head hf hqr⟩

theorem mem_roots : t ∈ g.roots ↔
    (∃ o op, g.op? o = some op ∧ op.kind = .sgdVarUpdate ∧ t ∈ op.outputs) ∨ t ∈ g.kept := by
  simp only [roots, SortedSet.mem_insertMany, List.mem_flatMap, List.mem_filter, Dict.mem_values,
    decide_eq_true_eq]
  refine or_congr ⟨?_, ?_⟩ Iff.rfl
  · rintro ⟨op, ⟨⟨o, ho⟩, hk⟩, ht⟩
    exact ⟨o, op, ho, hk, ht⟩
  · rintro ⟨o, op, ho, hk, ht⟩
    exact ⟨op, ⟨⟨o, ho⟩, hk⟩, ht⟩

/-- The live ops are those that something needed in itself depends on. -/
theorem mem_liveOps (hl : g.Linked) : o ∈ g.liveOps ↔ g.Needed o := by
  rw [liveOps, mem_opsTo hl]
  constructor
  · rintro ⟨t, ht, r, hr, hor⟩
    obtain ⟨op, hop, hout⟩ := hl.op_of_producer hr
    rcases mem_roots.1 (SortedSet.mem_toList.1 ht) with ⟨r', op', hop', hkind, hout'⟩ | hkept
    · cases hl.producer_unique hop hop' hout hout'
      exact ⟨r, op', t, hop', hout', .inr hkind, hor⟩
    · exact ⟨r, op, t, hop, hout, .inl hkept, hor⟩
  · rintro ⟨r, op, t, hop, hout, hroot, hor⟩
    refine ⟨t, SortedSet.mem_toList.2 (mem_roots.2 ?_), r, hl.makes.2 ⟨op, hop, hout⟩, hor⟩
    rcases hroot with hkept | hkind
    · exact .inr hkept
    · exact .inl ⟨r, op, hop, hkind, hout⟩

/-- An op that makes what is to be kept is live. -/
theorem Needed.of_kept (hop : g.op? o = some op) (hout : t ∈ op.outputs) (hkept : t ∈ g.kept) : g.Needed o :=
  ⟨o, op, t, hop, hout, .inl hkept, .refl⟩

/-- An op that updates a weight is live. -/
theorem Needed.of_update (hop : g.op? o = some op) (hout : t ∈ op.outputs) (hkind : op.kind = .sgdVarUpdate) :
    g.Needed o := ⟨o, op, t, hop, hout, .inr hkind, .refl⟩

/-! ## Orphans -/

theorem mem_orphans (hl : g.Linked) : t ∈ g.orphans ↔ ∃ x, g.tensor? t = some x ∧
    (x.type = .const ∨ x.type = .actGrad) ∧ x.producer = none ∧ (∀ o, o ∉ x.consumers) ∧ t ∉ g.kept := by
  have hempty : ∀ s : SortedSet OpId, s.isEmpty = true ↔ ∀ o, o ∉ s := by
    intro s
    rw [← Bool.not_eq_false, SortedSet.isEmpty_eq_false_iff, not_exists]
  simp only [orphans, List.mem_map, List.mem_filter, Dict.mem_values, Bool.and_eq_true, Bool.or_eq_true, beq_iff_eq,
    Bool.not_eq_true', Option.isNone_iff_eq_none, hempty, isKept, SortedSet.contains_eq_false_iff]
  constructor
  · rintro ⟨x, ⟨⟨k, hx⟩, ⟨⟨htype, hp⟩, hc⟩, hkept⟩, rfl⟩
    have hk : g.tensor? k = some x := hx
    rw [← hl.tensorId hk] at hk
    exact ⟨x, hk, htype, hp, hc, hkept⟩
  · rintro ⟨x, hx, htype, hp, hc, hkept⟩
    have hid := hl.tensorId hx
    exact ⟨x, ⟨⟨t, hx⟩, ⟨⟨htype, hp⟩, hc⟩, hid.symm ▸ hkept⟩, hid⟩

theorem nodup_orphans (hl : g.Linked) : g.orphans.Nodup := by
  have hids : g.tensors.values.map (·.id) = g.tensors.keys := by
    rw [Dict.values, Dict.keys, List.map_map]
    refine List.map_congr_left fun e he => hl.tensorId (t := e.1) ?_
    exact Dict.get?_eq_some_iff.2 he
  unfold orphans
  refine List.Nodup.sublist (List.Sublist.map _ List.filter_sublist) ?_
  rw [hids]
  exact g.tensors.nodup_keys

/-! ## Erasing and removing -/

theorem Restricts.eraseOp (hl : g.Linked) {id : OpId} {removed : Op} (h : g.eraseOp id = .ok (removed, g')) :
    Restricts g g' := by
  obtain ⟨hd, hfree⟩ := eraseOp_ok h
  refine ⟨hl.dropOp hd fun _ => consumedOutput?_eq_none.1 hfree, fun {o op} ho => ?_, fun {t x} hx => ?_⟩
  · exact (hd.op?_eq_some.1 ho).2
  · rw [hd.tensor?_eq] at hx
    split at hx
    · cases hx
    · rename_i hout
      exact hd.bare_eq fun ht => hout ⟨rfl, ht⟩

theorem Restricts.removeTensor (hl : g.Linked) {id : TensorId} {x : Tensor} (h : g.removeTensor id = .ok (x, g')) :
    Restricts g g' := by
  have hl' := hl.removeTensor h
  have hlook := tensor?_removeTensor h
  obtain ⟨-, -, -, rfl⟩ := removeTensor_ok h
  refine ⟨hl', fun ho => ho, fun {t y} hy => ?_⟩
  rw [hlook] at hy ⊢
  split at hy
  · cases hy
  · rename_i hne
    rw [if_neg hne]

theorem run_change_discard_ok {α : Type} {f : Graph → Outcome (α × Graph)} {u : Unit} :
    (do let _ ← Stateful.change f : GraphM Unit).run g = (.ok u, g') ↔ ∃ x, f g = .ok (x, g') := by
  constructor
  · intro h
    obtain ⟨x, g₁, h1, h2⟩ := Stateful.run_bind_ok.1 h
    cases h2
    exact ⟨x, Stateful.run_change_ok.1 h1⟩
  · rintro ⟨x, h⟩
    exact Stateful.run_bind_ok.2 ⟨x, g', Stateful.run_change_ok.2 h, rfl⟩

/-- A restricted graph is well-formed if it has all the streams. -/
theorem Restricts.wellFormed (h : Restricts g g') (hw : g.WellFormed) (hn : g'.nextOp = g.nextOp)
    (hs : ∀ {t x}, g'.tensor? t = some x → x.type = .stream → g'.streams.count t = g.streams.count t) : g'.WellFormed := by
  refine ⟨h.linked.opId, h.linked.tensorId, fun ho => hn ▸ hw.opBound (h.op ho), fun ho ht => ?_, fun ho ht => ?_,
    h.linked.reads, h.linked.makes, fun hx hp => ?_, fun hx hst => ?_⟩
  · exact hasTensor_iff.2 (h.linked.hasTensor_of_input ho ht)
  · obtain ⟨x, hx, -⟩ := h.linked.hasTensor_of_output ho ht
    exact hasTensor_iff.2 ⟨x, hx⟩
  · obtain ⟨y, hy, hyx⟩ := h.lookup hx
    exact hyx.type ▸ hw.produced hy (hyx.producer.trans hp)
  · obtain ⟨y, hy, hyx⟩ := h.lookup hx
    rw [hs hx hst]
    exact hw.streams hy (hyx.type.trans hst)

/-! ## The sweep of the ops -/

/-- What is left of a graph when ops and their results are gone. -/
structure Without (g : Graph) (dead : List OpId) (g' : Graph) : Prop where
  restricts : Restricts g g'
  op?_eq : ∀ o, g'.op? o = if o ∈ dead then none else g.op? o
  bare_eq : ∀ t, (∀ o ∈ dead, g.producer? t ≠ some o) → (g'.tensor? t).map bare = (g.tensor? t).map bare
  frame : g' = { g with ops := g'.ops, tensors := g'.tensors }

/-- An op whose results nobody reads can be erased. -/
theorem Linked.eraseOp_unread (hl : g.Linked) (ho : g.op? o = some op) (hunread : ∀ q, ¬ g.Feeds o q) :
    ∃ g', g.eraseOp o = .ok (op, g') ∧ Without g [o] g' := by
  have hfree : (g.op? o).bind g.consumedOutput? = none := by
    rw [ho, Option.bind_some, consumedOutput?_eq_none]
    intro t ht q hq
    obtain ⟨op', hop', hin⟩ := hl.reads.1 hq
    exact absurd ⟨op', hop', t, hin, hl.makes.2 ⟨op, ho, ht⟩⟩ (hunread q)
  have herase : ∃ g', g.eraseOp o = .ok (op, g') := by
    unfold eraseOp detachOp
    rw [hfree, ho]
    exact ⟨_, rfl⟩
  obtain ⟨g', herase⟩ := herase
  obtain ⟨hd, -⟩ := eraseOp_ok herase
  refine ⟨g', herase, .eraseOp hl herase, fun p => ?_, fun t ht => hd.bare_eq fun hout => ?_, hd.frame⟩
  · rw [hd.op?_eq]
    simp only [List.mem_singleton]
  · exact ht o (List.mem_singleton_self o) (hl.makes.2 ⟨op, ho, hout⟩)

theorem Without.trans {dead : List OpId} {g'' : Graph} (h : Without g [o] g') (h' : Without g' dead g'') :
    Without g (o :: dead) g'' := by
  refine ⟨h.restricts.trans h'.restricts, fun p => ?_, fun t ht => ?_, ?_⟩
  · rw [h'.op?_eq, h.op?_eq]
    by_cases hp : p ∈ dead
    · rw [if_pos hp, if_pos (List.mem_cons_of_mem _ hp)]
    · by_cases hpo : p = o
      · rw [if_neg hp, if_pos (hpo ▸ List.mem_singleton_self o), if_pos (hpo ▸ List.mem_cons_self)]
      · rw [if_neg hp, if_neg (fun e => hpo (List.mem_singleton.1 e)), if_neg]
        exact fun e => (List.mem_cons.1 e).elim hpo hp
  · have hfirst := h.bare_eq t fun q hq => ht q (List.mem_singleton.1 hq ▸ List.mem_cons_self)
    refine (h'.bare_eq t fun q hq => ?_).trans hfirst
    rw [producer?_congr hfirst]
    exact ht q (List.mem_cons_of_mem _ hq)
  · rw [h'.frame, h.frame]

/-- Ops that feed only each other can be erased if none is followed by one that reads from it. -/
theorem run_eraseAll : ∀ {l : List OpId} {g : Graph}, g.Linked → l.Nodup → (∀ o ∈ l, ∃ op, g.op? o = some op) →
    (∀ o ∈ l, ∀ q, g.Feeds o q → q ∈ l) → l.Pairwise (fun o q => ¬ g.Feeds o q) → (∀ o ∈ l, ¬ g.Feeds o o) →
    ∃ g', (l.forM fun id => do let _ ← Stateful.change fun g => g.eraseOp id : GraphM Unit).run g = (.ok ⟨⟩, g') ∧
      Without g l g'
  | [], g, hl, _, _, _, _, _ => ⟨g, rfl, .refl hl, fun _ => rfl, fun _ _ => rfl, rfl⟩
  | o :: l, g, hl, hnodup, hop, hclosed, hbefore, hself => by
    obtain ⟨hnot, hnodup⟩ := List.nodup_cons.1 hnodup
    obtain ⟨hfirst, hbefore⟩ := List.pairwise_cons.1 hbefore
    have hunread : ∀ q, ¬ g.Feeds o q := fun q hf => by
      rcases List.mem_cons.1 (hclosed o List.mem_cons_self q hf) with rfl | hq
      · exact hself q List.mem_cons_self hf
      · exact hfirst q hq hf
    obtain ⟨op, ho⟩ := hop o List.mem_cons_self
    obtain ⟨g₁, herase, hwithout⟩ := hl.eraseOp_unread ho hunread
    have hfeeds : ∀ {p q}, g₁.Feeds p q → g.Feeds p q := hwithout.restricts.feeds
    have hop₁ : ∀ {q}, q ≠ o → g₁.op? q = g.op? q := fun hne => by
      rw [hwithout.op?_eq, if_neg fun hq => hne (List.mem_singleton.1 hq)]
    obtain ⟨g', hrun, hrest⟩ := run_eraseAll (l := l) hwithout.restricts.linked hnodup
      (fun q hq => by
        rw [hop₁ fun e => hnot (e ▸ hq)]
        exact hop q (List.mem_cons_of_mem _ hq))
      (fun p hp q hf => by
        refine (List.mem_cons.1 (hclosed p (List.mem_cons_of_mem _ hp) q (hfeeds hf))).resolve_left fun hq => ?_
        obtain ⟨op', hq', -⟩ := hf
        rw [hq, hwithout.op?_eq, if_pos (List.mem_singleton_self o)] at hq'
        cases hq')
      (hbefore.imp fun hnot hf => hnot (hfeeds hf))
      (fun p hp hf => hself p (List.mem_cons_of_mem _ hp) (hfeeds hf))
    refine ⟨g', ?_, hwithout.trans hrest⟩
    rw [Stateful.forM_cons]
    exact Stateful.run_bind_ok.2 ⟨⟨⟩, g₁, run_change_discard_ok.2 ⟨op, herase⟩, hrun⟩

/-! ## The sweep of the tensors -/

/-- What is left of a graph when some tensors are gone. -/
structure Rid (g : Graph) (l : List TensorId) (g' : Graph) : Prop where
  linked : g'.Linked
  tensor?_eq : ∀ t, g'.tensor? t = if t ∈ l then none else g.tensor? t
  frame : g' = { g with streams := g.streams.filter (· ∉ l), tensors := g'.tensors }

namespace Rid

variable {l : List TensorId}

theorem op?_eq (h : Rid g l g') (o : OpId) : g'.op? o = g.op? o := by
  rw [h.frame]
  rfl

theorem left (h : Rid g l g') {x : Tensor} (hx : g'.tensor? t = some x) : t ∉ l ∧ g.tensor? t = some x := by
  rw [h.tensor?_eq] at hx
  split at hx
  · cases hx
  · rename_i hnot
    exact ⟨hnot, hx⟩

theorem restricts (h : Rid g l g') : Restricts g g' :=
  ⟨h.linked, fun ho => h.op?_eq _ ▸ ho, fun hx => by rw [hx, (h.left hx).2]⟩

end Rid

/-- Tensors that no op produces or consumes can be removed. -/
theorem run_removeAll : ∀ {l : List TensorId} {g : Graph}, g.Linked → l.Nodup →
    (∀ t ∈ l, ∃ x, g.tensor? t = some x ∧ x.producer = none ∧ ∀ o, o ∉ x.consumers) →
    ∃ g', (l.forM fun id => do let _ ← Stateful.change fun g => g.removeTensor id : GraphM Unit).run g = (.ok ⟨⟩, g') ∧
      Rid g l g'
  | [], g, hl, _, _ => ⟨g, rfl, hl, fun _ => rfl, by simp⟩
  | t :: l, g, hl, hnodup, hfree => by
    obtain ⟨hnot, hnodup⟩ := List.nodup_cons.1 hnodup
    obtain ⟨x, hx, hp, hc⟩ := hfree t List.mem_cons_self
    have hremove : ∃ g₁, g.removeTensor t = .ok (x, g₁) := by
      have hconnected : ¬ (x.producer.isSome = true ∨ x.consumers.isEmpty = false) := by
        rw [hp, SortedSet.isEmpty_eq_false_iff]
        rintro (h | ⟨o, ho⟩)
        · cases h
        · exact hc o ho
      unfold removeTensor
      rw [hx]
      exact ⟨_, if_neg hconnected⟩
    obtain ⟨g₁, hremove⟩ := hremove
    have hlook := tensor?_removeTensor hremove
    obtain ⟨g', hrun, hrid⟩ := run_removeAll (l := l) (hl.removeTensor hremove) hnodup fun u hu => by
      have hne : t ≠ u := fun e => hnot (e.symm ▸ hu)
      rw [hlook, if_neg hne]
      exact hfree u (List.mem_cons_of_mem _ hu)
    refine ⟨g', ?_, hrid.linked, fun u => ?_, ?_⟩
    · rw [Stateful.forM_cons]
      exact Stateful.run_bind_ok.2 ⟨⟨⟩, g₁, run_change_discard_ok.2 ⟨x, hremove⟩, hrun⟩
    · rw [hrid.tensor?_eq, hlook]
      by_cases hu : u ∈ l <;> by_cases htu : t = u <;> simp [hu, htu, eq_comm]
    · obtain ⟨-, -, -, rfl⟩ := removeTensor_ok hremove
      rw [hrid.frame]
      simp only [List.filter_filter, List.mem_cons, not_or, Bool.decide_and, Bool.and_comm]

/-! ## What is left -/

/-- Needed without any op: to be kept, or neither a constant nor computed. -/
def Lasting (g : Graph) (t : TensorId) : Prop :=
  t ∈ g.kept ∨ ∃ x, g.tensor? t = some x ∧ (x.type = .stream ∨ x.type = .weight ∨ x.type = .optimizerStream)

/-- A tensor of an op. -/
def Connected (g : Graph) (t : TensorId) : Prop := ∃ o op, g.op? o = some op ∧ (t ∈ op.inputs ∨ t ∈ op.outputs)

/-- An orphan is a tensor that is neither lasting nor connected. -/
theorem mem_orphans_iff (hl : g.Linked) : t ∈ g.orphans ↔ g.hasTensor t = true ∧ ¬ g.Lasting t ∧ ¬ g.Connected t := by
  rw [mem_orphans hl, hasTensor_iff]
  constructor
  · rintro ⟨x, hx, htype, hp, hc, hkept⟩
    refine ⟨⟨x, hx⟩, ?_, ?_⟩
    · rintro (hk | ⟨y, hy, hy'⟩)
      · exact hkept hk
      · cases hx.symm.trans hy
        rcases htype with htype | htype <;> simp [htype] at hy'
    · rintro ⟨o, op, ho, hin | hout⟩
      · exact hc o ((hl.mem_inputs ho hx).2 hin)
      · have hmade := (hl.mem_outputs ho hx).2 hout
        rw [hp] at hmade
        cases hmade
  · rintro ⟨⟨x, hx⟩, hlast, hconn⟩
    refine ⟨x, hx, ?_, ?_, fun o ho => ?_, fun hk => hlast (.inl hk)⟩
    · have htypes : ¬ (x.type = .stream ∨ x.type = .weight ∨ x.type = .optimizerStream) := fun h =>
        hlast (.inr ⟨x, hx, h⟩)
      cases htype : x.type <;> simp [htype] at htypes ⊢
    · cases hp : x.producer with
      | none => rfl
      | some o =>
        obtain ⟨op, ho, hout⟩ := (hl.producer_iff hx).1 hp
        exact absurd ⟨o, op, ho, .inr hout⟩ hconn
    · obtain ⟨op, hop, hin⟩ := (hl.mem_consumers_iff hx).1 ho
      exact hconn ⟨o, op, hop, .inl hin⟩

/-- What is left of a graph without what is dead. -/
structure Pruned (g g' : Graph) : Prop where
  wellFormed : g'.WellFormed
  restricts : Restricts g g'
  kept : g'.kept = g.kept
  op : ∀ o op, g'.op? o = some op ↔ g.op? o = some op ∧ g.Needed o
  lasting : ∀ t, g.Lasting t → (g'.tensor? t).map bare = (g.tensor? t).map bare
  connected : ∀ t, g'.hasTensor t = true → g.Lasting t ∨ g'.Connected t

theorem Restricts.lasting (h : Restricts g g') (hkept : g'.kept = g.kept) (ht : g'.hasTensor t = true) :
    g'.Lasting t ↔ g.Lasting t := by
  have hsame := h.tensor_of_has ht
  have hother : ∀ {a b : Graph}, (a.tensor? t).map bare = (b.tensor? t).map bare →
      (∃ x, a.tensor? t = some x ∧ (x.type = .stream ∨ x.type = .weight ∨ x.type = .optimizerStream)) →
      ∃ x, b.tensor? t = some x ∧ (x.type = .stream ∨ x.type = .weight ∨ x.type = .optimizerStream) := by
    rintro a b hab ⟨x, hx, htype⟩
    obtain ⟨y, hy, hyx⟩ := lookup_of_bare hab.symm hx
    exact ⟨y, hy, hyx.type.symm ▸ htype⟩
  unfold Lasting
  rw [hkept]
  exact or_congr_right ⟨hother hsame, hother hsame.symm⟩

/-- A graph without its dead ops and without what is then an orphan. -/
theorem Pruned.of_sweeps {dead : List OpId} {g₁ : Graph} (h : g.WellFormed)
    (hdead : ∀ {o}, o ∈ dead ↔ (∃ op, g.op? o = some op) ∧ ¬ g.Needed o) (hops : Without g dead g₁)
    (htensors : Rid g₁ g₁.orphans g') : Pruned g g' := by
  have hl₁ := hops.restricts.linked
  have hkept₁ : g₁.kept = g.kept := by rw [hops.frame]
  have hkept : g'.kept = g.kept := by rw [htensors.frame, ← hkept₁]
  have hrestricts : Restricts g g' := hops.restricts.trans htensors.restricts
  refine ⟨?_, hrestricts, hkept, fun o op => ?_, fun t ht => ?_, fun t ht => ?_⟩
  · refine hrestricts.wellFormed h ?_ fun {t x} hx _ => ?_
    · rw [htensors.frame, hops.frame]
    · have hstreams : g'.streams = g₁.streams.filter (· ∉ g₁.orphans) := congrArg Graph.streams htensors.frame
      have hsame : g₁.streams = g.streams := by rw [hops.frame]
      rw [hstreams, hsame]
      exact List.count_filter (by simpa using (htensors.left hx).1)
  · rw [htensors.op?_eq, hops.op?_eq]
    constructor
    · intro ho
      split at ho
      · cases ho
      · rename_i hnot
        exact ⟨ho, by_contra fun hneeded => hnot (hdead.2 ⟨⟨op, ho⟩, hneeded⟩)⟩
    · rintro ⟨ho, hneeded⟩
      rw [if_neg fun hd => (hdead.1 hd).2 hneeded, ho]
  · have hsame : (g₁.tensor? t).map bare = (g.tensor? t).map bare := by
      refine hops.bare_eq t fun o ho hp => (hdead.1 ho).2 ?_
      obtain ⟨op, hop, hout⟩ := h.linked.op_of_producer hp
      rcases ht with hkept | ⟨x, hx, htype⟩
      · exact .of_kept hop hout hkept
      · obtain ⟨y, hy, hyp⟩ := producer?_eq_some.1 hp
        cases hx.symm.trans hy
        rw [h.produced hx hyp] at htype
        simp at htype
    rw [htensors.tensor?_eq, ← hsame]
    split
    · rename_i horphan
      obtain ⟨hhas, hlast, -⟩ := (mem_orphans_iff hl₁).1 horphan
      exact absurd ((hops.restricts.lasting hkept₁ hhas).2 ht) hlast
    · rfl
  · obtain ⟨x, hx⟩ := hasTensor_iff.1 ht
    obtain ⟨hnot, hx₁⟩ := htensors.left hx
    have hhas : g₁.hasTensor t = true := hasTensor_iff.2 ⟨x, hx₁⟩
    by_contra hneither
    rw [not_or] at hneither
    refine hnot ((mem_orphans_iff hl₁).2 ⟨hhas, ?_, ?_⟩)
    · exact fun hlast => hneither.1 ((hops.restricts.lasting hkept₁ hhas).1 hlast)
    · rintro ⟨o, op, ho, hconn⟩
      exact hneither.2 ⟨o, op, (htensors.op?_eq o).trans ho, hconn⟩

/-- Removing dead ops succeeds on a well-formed graph without cycles, and the number of dead ops is the result. -/
theorem WellFormed.removeDead_pruned (h : g.WellFormed) (ha : g.Acyclic) :
    ∃ k g', removeDead.run g = (.ok k, g') ∧ Pruned g g' ∧
      k = {o | (∃ op, g.op? o = some op) ∧ ¬ g.Needed o}.ncard := by
  have hl := h.linked
  obtain ⟨order, horder⟩ := ha.order_ok hl
  have hcomplete := order_complete hl horder
  have hdead : ∀ {o}, o ∈ order.reverse.filter (fun id => !g.liveOps.contains id) ↔
      (∃ op, g.op? o = some op) ∧ ¬ g.Needed o := by
    intro o
    rw [List.mem_filter, List.mem_reverse, hcomplete.mem_iff, Bool.not_eq_true', SortedSet.contains_eq_false_iff,
      mem_liveOps hl]
  generalize hlist : order.reverse.filter (fun id => !g.liveOps.contains id) = dead at hdead
  have hnodup : dead.Nodup := hlist ▸ (List.nodup_reverse.2 hcomplete.schedule.nodup).filter _
  -- the readers of a dead op are dead, and come before it
  have hclosed : ∀ o ∈ dead, ∀ q, g.Feeds o q → q ∈ dead := by
    intro o ho q hf
    obtain ⟨op, hq, -⟩ := id hf
    exact hdead.2 ⟨⟨op, hq⟩, fun hneeded => (hdead.1 ho).2 (hneeded.of_feeds hf)⟩
  have hbefore : dead.Pairwise fun o q => ¬ g.Feeds o q :=
    hlist ▸ (List.pairwise_reverse.2 hcomplete.schedule.pairwise).filter _
  obtain ⟨g₁, hops, hwithout⟩ := run_eraseAll hl hnodup (fun o ho => (hdead.1 ho).1) hclosed hbefore
    fun o _ hf => ha o (.single hf)
  have hl₁ := hwithout.restricts.linked
  obtain ⟨g', htensors, hrid⟩ := run_removeAll hl₁ (nodup_orphans hl₁) fun t ht => by
    obtain ⟨x, hx, -, hp, hc, -⟩ := (mem_orphans hl₁).1 ht
    exact ⟨x, hx, hp, hc⟩
  refine ⟨dead.length, g', ?_, .of_sweeps h hdead hwithout hrid, ?_⟩
  · unfold removeDead
    refine Stateful.run_bind_ok.2 ⟨g, g, rfl, Stateful.run_bind_ok.2 ⟨order, g, by rw [Stateful.run_lift, horder], ?_⟩⟩
    simp only [hlist]
    exact Stateful.run_bind_ok.2 ⟨_, g₁, hops, Stateful.run_bind_ok.2 ⟨g₁, g₁, rfl,
      Stateful.run_bind_ok.2 ⟨_, g', htensors, rfl⟩⟩⟩
  · have hset : {o | (∃ op, g.op? o = some op) ∧ ¬ g.Needed o} = (dead.toFinset : Set OpId) := by
      ext o
      simp [hdead]
    rw [hset, Set.ncard_coe_finset, List.toFinset_card_of_nodup hnodup]

/-- Removing dead ops changes nothing where all ops are live and nothing is an orphan. -/
theorem removeDead_idle (hl : g.Linked) (ha : g.Acyclic) (hops : ∀ o op, g.op? o = some op → g.Needed o)
    (horphans : g.orphans = []) : removeDead.run g = (.ok 0, g) := by
  obtain ⟨order, horder⟩ := ha.order_ok hl
  have hnone : order.reverse.filter (fun id => !g.liveOps.contains id) = [] := by
    refine List.filter_eq_nil_iff.2 fun o ho => ?_
    obtain ⟨op, hop⟩ := (order_complete hl horder).mem_iff.1 (List.mem_reverse.1 ho)
    rw [SortedSet.contains_iff.2 ((mem_liveOps hl).2 (hops o op hop))]
    exact Bool.false_ne_true
  unfold removeDead
  refine Stateful.run_bind_ok.2 ⟨g, g, rfl, Stateful.run_bind_ok.2 ⟨order, g, by rw [Stateful.run_lift, horder], ?_⟩⟩
  simp only [hnone]
  refine Stateful.run_bind_ok.2 ⟨_, g, rfl, Stateful.run_bind_ok.2 ⟨g, g, rfl, ?_⟩⟩
  rw [horphans]
  rfl

namespace Pruned

variable (h : Pruned g g')

include h

/-- What feeds a live op still does. -/
theorem feeds (hl : g.Linked) (hf : g.Feeds p q) (hq : g.Needed q) : g'.Feeds p q := by
  obtain ⟨op, hop, t, ht, hp⟩ := id hf
  obtain ⟨maker, hmaker, hout⟩ := hl.op_of_producer hp
  have hmaker' := (h.op p maker).2 ⟨hmaker, hq.of_feeds hf⟩
  exact ⟨op, (h.op q op).2 ⟨hop, hq⟩, t, ht, h.wellFormed.makes.2 ⟨maker, hmaker', hout⟩⟩

/-- All ops that are left are live. -/
theorem needed (hl : g.Linked) (ho : g'.op? o = some op) : g'.Needed o := by
  obtain ⟨-, hneeded⟩ := (h.op o op).1 ho
  obtain ⟨r, root, t, hr, ht, hroot, hor⟩ := hneeded
  have hrneeded : g.Needed r := ⟨r, root, t, hr, ht, hroot, .refl⟩
  refine ⟨r, root, t, (h.op r root).2 ⟨hr, hrneeded⟩, ht, by rwa [h.kept], ?_⟩
  clear ho
  induction hor using Relation.ReflTransGen.head_induction_on with
  | refl => exact .refl
  | head hf hrest ih => exact .head (h.feeds hl hf ⟨r, root, t, hr, ht, hroot, hrest⟩) ih

theorem orphans_eq : g'.orphans = [] := by
  refine List.eq_nil_iff_forall_not_mem.2 fun t ht => ?_
  obtain ⟨hhas, hlast, hconn⟩ := (mem_orphans_iff h.wellFormed.linked).1 ht
  rcases h.connected t hhas with hlasting | hconnected
  · exact hlast ((h.restricts.lasting h.kept hhas).2 hlasting)
  · exact hconn hconnected

theorem acyclic (ha : g.Acyclic) : g'.Acyclic := ha.of_feeds fun hf => .single (h.restricts.feeds hf)

/-- There is nothing more to remove. -/
theorem removeDead_idle (hl : g.Linked) (ha : g.Acyclic) : removeDead.run g' = (.ok 0, g') :=
  Graph.removeDead_idle h.wellFormed.linked (h.acyclic ha) (fun _ _ ho => h.needed hl ho) h.orphans_eq

end Pruned

/-- The removal of dead ops is exact. On a well-formed graph without cycles it succeeds and leaves a well-formed graph
with exactly the ops from which something needed in itself is reached, as they were; the result is the number of the
others. Tensors to be kept, streams, weights and settings of the optimizer stay, and beside them only what an op that is
left reads or makes. Removing dead ops again changes nothing. -/
theorem removeDead_exact (h : g.WellFormed) (ha : g.Acyclic) :
    ∃ k g', removeDead.run g = (.ok k, g') ∧ g'.WellFormed ∧ g'.kept = g.kept ∧
      (∀ o op, g'.op? o = some op ↔ g.op? o = some op ∧ g.Needed o) ∧
      k = {o | (∃ op, g.op? o = some op) ∧ ¬ g.Needed o}.ncard ∧
      (∀ t, g.Lasting t → (g'.tensor? t).map bare = (g.tensor? t).map bare) ∧
      (∀ t, g'.hasTensor t = true → (g'.tensor? t).map bare = (g.tensor? t).map bare ∧ (g.Lasting t ∨ g'.Connected t)) ∧
      removeDead.run g' = (.ok 0, g') := by
  obtain ⟨k, g', hrun, hpruned, hcount⟩ := h.removeDead_pruned ha
  refine ⟨k, g', hrun, hpruned.wellFormed, hpruned.kept, hpruned.op, hcount, hpruned.lasting, fun t ht => ?_, ?_⟩
  · exact ⟨hpruned.restricts.tensor_of_has ht, hpruned.connected t ht⟩
  · exact hpruned.removeDead_idle h.linked ha

/-- What is kept is copied twice in vain, the first copy is read only by the second, and a constant is read by none. -/
def crowdedCalls : List Edit :=
  [.addTensor "x" ⟨.float, [2]⟩ .stream none, .addTensor "s" ⟨.float, []⟩ .optimizerStream none,
    .addConst "c" ⟨⟨.float, [2]⟩, .f32 [.one, .zero]⟩, .addOp .identity ["x"] ["a"] .forward,
    .addOp .identity ["a"] ["b"] .forward, .addOp .identity ["b"] ["d"] .forward, .addOp .identity ["a"] ["y"] .forward,
    .keep "y"]

def crowded : Graph := crowdedCalls.foldl (fun g e => (e.call.run g).2) Graph.empty

theorem crowded_sound : crowded.Sound := by
  have h : Edited Graph.empty crowded :=
    .call _ (.call _ (.call _ (.call _ (.call _ (.call _ (.call _ (.call _ .start trivial) trivial) trivial) trivial)
      trivial) trivial) trivial) trivial
  exact h.sound .empty

theorem removeDead_exact_crowded : ∃ g', removeDead.run crowded = (.ok 2, g') ∧ g'.WellFormed ∧ g'.ops.keys = [0, 3] ∧
    g'.tensors.keys = ["a", "s", "x", "y"] ∧ removeDead.run g' = (.ok 0, g') := by
  have hacyclic := (order_complete crowded_sound.linked (l := [0, 1, 2, 3]) (by decide)).acyclic
  obtain ⟨k, g', hrun, hwell, -, -, -, -, -, hagain⟩ := removeDead_exact crowded_sound.wellFormed hacyclic
  have hsame : removeDead.run crowded = (.ok 2, (removeDead.run crowded).2) :=
    Stateful.eq_ok_of_fst (by decide +kernel)
  obtain ⟨hk, hg⟩ := Prod.mk.inj (hrun.symm.trans hsame)
  cases hk
  refine ⟨g', hrun, hwell, ?_, ?_, hagain⟩
  · rw [hg]
    decide +kernel
  · rw [hg]
    decide +kernel

end Graph

end TensorGraph
