import TensorGraph.Proofs.Pattern.Driver

/-!
What an editor counts. Every action of a built-in pattern counts a change around each op whose operands or infos it
touches, or whose operands it makes constants; an op whose version is the same is the same, and so is all that a
pattern looks at to say that it does not apply.
-/
namespace TensorGraph

open TensorGraph.Graph

variable {r r₁ r' r'' : Editor} {op : Op} {kind : OpKind} {inputs : List TensorId} {t output : TensorId} {o : OpId}
  {k : BuiltIn} {p : Pattern} {backend : Option Backend} {patterns : List Pattern}

/-! ## Versions -/

namespace Editor

theorem version_bump (r : Editor) (o o' : OpId) : (r.bump o).version o' = r.version o' + if o = o' then 1 else 0 := by
  unfold bump version
  rw [Dict.get?_insert]
  split
  · rename_i ho
    subst ho
    rfl
  · rfl

theorem version_foldl_bump (o : OpId) : ∀ (l : List OpId) (r : Editor),
    (l.foldl bump r).version o = r.version o + l.count o
  | [], _ => rfl
  | a :: l, r => by
    rw [List.foldl_cons, version_foldl_bump o l, version_bump, List.count_cons, Nat.add_assoc, Nat.add_comm (List.count o l)]
    simp only [beq_iff_eq]

theorem version_le_bumpProducers (o : OpId) : ∀ (l : List TensorId) (r : Editor),
    r.version o ≤ (l.foldl bumpProducer r).version o
  | [], _ => Nat.le_refl _
  | t :: l, r => by
    refine Nat.le_trans ?_ (version_le_bumpProducers o l _)
    rw [bumpProducer, version_foldl_bump]
    exact Nat.le_add_right ..

theorem version_bumpUsers (r : Editor) (t : TensorId) (o : OpId) :
    (r.bumpUsers t).version o = r.version o + (r.graph.consumers t).count o := version_foldl_bump ..

/-- Each consumer of one of the tensors is counted. -/
theorem version_le_bumpUsers (o : OpId) : ∀ (l : List TensorId) (r : Editor),
    r.version o ≤ (l.foldl bumpUsers r).version o ∧
      ((∃ t ∈ l, o ∈ r.graph.consumers t) → r.version o < (l.foldl bumpUsers r).version o)
  | [], _ => ⟨Nat.le_refl _, nofun⟩
  | t :: l, r => by
    obtain ⟨hle, hlt⟩ := version_le_bumpUsers o l (r.bumpUsers t)
    rw [version_bumpUsers] at hle hlt
    refine ⟨(Nat.le_add_right ..).trans hle, fun ⟨t', ht', ho⟩ => ?_⟩
    rcases List.mem_cons.1 ht' with rfl | ht'
    · have hpos := List.count_pos_iff.2 ho
      exact (Nat.lt_add_of_pos_right hpos).trans_le hle
    · rw [bumpUsers_graph] at hlt
      exact (Nat.le_add_right ..).trans_lt (hlt ⟨t', ht', ho⟩)

theorem version_forget (r : Editor) {o o' : OpId} (h : o' ≠ o) : (r.forget o).version o' = r.version o' := by
  unfold forget version
  rw [Dict.get?_erase, if_neg h.symm]

/-! ## What is counted -/

/-- Every change on the way from `r` to `r'` is counted: an op that is still there in the same version is the same, and
so is what surrounds it. -/
structure Counts (r r' : Editor) : Prop where
  fresh : ∀ {o op'}, r'.graph.op? o = some op' → (∃ op, r.graph.op? o = some op) ∨ r.graph.nextOp ≤ o
  nextOp : r.graph.nextOp ≤ r'.graph.nextOp
  grows : ∀ {o op op'}, r.graph.op? o = some op → r'.graph.op? o = some op' → r.version o ≤ r'.version o
  same : ∀ {o op op'}, r.graph.op? o = some op → r'.graph.op? o = some op' → r'.version o = r.version o →
    op' = op ∧ Pattern.AlikeAround op r.graph r'.graph

namespace Counts

theorem trans (h : Counts r r₁) (h' : Counts r₁ r') (hn : r.graph.Numbered) : Counts r r' := by
  -- an op that is there at both ends was there in between, because no number is given twice
  have hbetween : ∀ {o op op'}, r.graph.op? o = some op → r'.graph.op? o = some op' → ∃ op₁, r₁.graph.op? o = some op₁ :=
    fun ho ho' => (h'.fresh ho').resolve_right fun hle =>
      Nat.not_le_of_lt (hn _ _ ho) (h.nextOp.trans hle)
  refine ⟨fun ho' => ?_, h.nextOp.trans h'.nextOp, fun ho ho' => ?_, fun ho ho' hv => ?_⟩
  · rcases h'.fresh ho' with ⟨op₁, ho₁⟩ | hle
    · exact h.fresh ho₁
    · exact .inr (h.nextOp.trans hle)
  · obtain ⟨op₁, ho₁⟩ := hbetween ho ho'
    exact (h.grows ho ho₁).trans (h'.grows ho₁ ho')
  · obtain ⟨op₁, ho₁⟩ := hbetween ho ho'
    have hfirst := h.grows ho ho₁
    have hsecond := h'.grows ho₁ ho'
    obtain ⟨rfl, halike⟩ := h.same ho ho₁ (by omega)
    obtain ⟨rfl, halike'⟩ := h'.same ho₁ ho' (by omega)
    exact ⟨rfl, fun t ht => (halike'.info t ht).trans (halike.info t ht),
      fun t ht => (halike'.constant t ht).trans (halike.constant t ht), halike'.kept.trans halike.kept⟩

theorem nextTemp (r : Editor) (n : Nat) : Counts r { r with graph := { r.graph with nextTemp := n } } :=
  ⟨fun ho => .inl ⟨_, ho⟩, Nat.le_refl _, fun _ _ => Nat.le_refl _,
    fun ho ho' _ => ⟨Option.some.inj (ho'.symm.trans ho), fun _ _ => rfl, fun _ _ => rfl, rfl⟩⟩

end Counts

theorem constantValue?_congr {g g' : Graph} (h : (g'.tensor? t).map bare = (g.tensor? t).map bare) :
    Pattern.constantValue? g' t = Pattern.constantValue? g t := by
  have hread : ∀ g : Graph, Pattern.constantValue? g t =
      ((g.tensor? t).map bare).bind fun x => if x.type = .const then x.data else none := by
    intro g
    rw [Pattern.constantValue?]
    cases g.tensor? t <;> rfl
  rw [hread, hread, h]

theorem alikeAround_of_bare {g g' : Graph} (hkept : g'.kept = g.kept)
    (h : ∀ t, t ∈ op.inputs ∨ t ∈ op.outputs → (g'.tensor? t).map bare = (g.tensor? t).map bare) :
    Pattern.AlikeAround op g g' :=
  ⟨fun t ht => info?_congr (h t ht), fun t ht => constantValue?_congr (h t (.inl ht)), hkept⟩

/-! ## Each call counts what it changes -/

/-- A change of the graph counts nothing by itself. -/
theorem versions_onGraph {α : Type} {x : GraphM α} {y : α} (h : (onGraph x).run r = (.ok y, r')) :
    r'.versions = r.versions := by
  rw [onGraph, Stateful.run_focus, Prod.mk.injEq] at h
  rw [← h.2]

theorem run_detach_eq (hrun : (detach op).run r = (.ok (), r')) : ∃ removed g₁,
    DroppedOp r.graph op.id removed false g₁ ∧
      r' = (removed.outputs.foldl bumpUsers { r with graph := g₁ }).forget op.id := by
  obtain ⟨removed, r₁, hcall, h⟩ := Stateful.run_bind_ok.1 hrun
  cases h
  refine ⟨removed, r₁.graph, detachOp_ok (Stateful.run_change_ok.1 (run_onGraph_ok hcall)), ?_⟩
  rw [← versions_onGraph hcall]

/-- Detaching an op counts a change around it and around each consumer of its results. -/
theorem counts_detach (h : r.graph.WellFormed) (ho : r.graph.op? op.id = some op)
    (hrun : (detach op).run r = (.ok (), r')) : Counts r r' ∧ r'.graph.op? op.id = none ∧
      ∀ o' op' t, o' ≠ op.id → r.graph.op? o' = some op' → t ∈ op.outputs → t ∈ op'.inputs →
        r.version o' < r'.version o' := by
  obtain ⟨removed, g₁, hd, rfl⟩ := run_detach_eq hrun
  cases hd.found.symm.trans ho
  have hgraph : ((op.outputs.foldl bumpUsers { r with graph := g₁ }).forget op.id).graph = g₁ :=
    foldl_graph (fun r i => bumpUsers_graph i) _ _
  have hl := h.linked.dropOp hd nofun
  have hother : ∀ {o' op'}, g₁.op? o' = some op' → o' ≠ op.id ∧ r.graph.op? o' = some op' := hd.op?_eq_some.1
  have hversion := fun o' => version_le_bumpUsers o' op.outputs { r with graph := g₁ }
  have hconst : ∀ t, Pattern.constantValue? g₁ t = Pattern.constantValue? r.graph t := by
    intro t
    rw [Pattern.constantValue?, Pattern.constantValue?, hd.tensor?_eq, if_neg (by simp)]
    cases r.graph.tensor? t <;> rfl
  refine ⟨⟨fun ho' => ?_, ?_, fun ho₁ ho' => ?_, fun ho₁ ho' _ => ?_⟩, ?_, fun o' op' t hne ho' hout hin => ?_⟩
  · rw [hgraph] at ho'
    exact .inl ⟨_, (hother ho').2⟩
  · rw [hgraph, hd.frame]
  · rw [hgraph] at ho'
    rw [version_forget _ (hother ho').1]
    exact (hversion _).1
  · rw [hgraph] at ho' ⊢
    exact ⟨Option.some.inj ((hother ho').2.symm.trans ho₁), fun t _ => hd.info?_eq t, fun t _ => hconst t, by rw [hd.frame]⟩
  · rw [hgraph, hd.op?_eq, if_pos rfl]
  · rw [version_forget _ hne]
    refine (hversion o').2 ⟨t, hout, hl.reads.2 ⟨op', ?_, hin⟩⟩
    rw [hd.op?_eq, if_neg hne, ho']

theorem run_insertAs_eq (hrun : (insertAs op kind inputs output).run r = (.ok (), r')) : ∃ g₁ info,
    AddedOp r.graph kind inputs output op.phase info g₁ ∧
      r' = (inputs.foldl bumpProducer ⟨g₁.modifyOp r.graph.nextOp fun new =>
        { new with virtualGraph := op.virtualGraph, forwardOp := op.forwardOp, excluded := op.excluded },
        r.versions⟩).bumpUsers output := by
  obtain ⟨id, r₁, hadd, h⟩ := Stateful.run_bind_ok.1 hrun
  obtain ⟨_, r₂, hmodify, h⟩ := Stateful.run_bind_ok.1 h
  cases hmodify
  cases h
  have hversions := versions_onGraph hadd
  obtain ⟨output', info, hout, rfl, ha⟩ := addOp_ok (Stateful.run_change_ok.1 (run_onGraph_ok hadd))
  cases hout
  exact ⟨r₁.graph, info, ha, by rw [← hversions]⟩

/-- Inserting an op counts a change around each op that reads its result. -/
theorem counts_insertAs (h : r.graph.WellFormed) (hrun : (insertAs op kind inputs output).run r = (.ok (), r')) :
    Counts r r' := by
  obtain ⟨g₁, info, ha, rfl⟩ := run_insertAs_eq hrun
  have hadded : Added r.graph kind inputs output info _ :=
    .of_addedOp h.linked h.numbered ha (f := fun new => { new with
      virtualGraph := op.virtualGraph, forwardOp := op.forwardOp, excluded := op.excluded })
      (fun _ => rfl) (fun _ => rfl) (fun _ => rfl) fun _ => rfl
  generalize hg : (g₁.modifyOp r.graph.nextOp fun new =>
    { new with virtualGraph := op.virtualGraph, forwardOp := op.forwardOp, excluded := op.excluded }) = g₂ at hadded ⊢
  have hkept : g₂.kept = r.graph.kept := by
    rw [← hg]
    exact ha.kept_eq
  have hmid : (inputs.foldl bumpProducer ⟨g₂, r.versions⟩).graph = g₂ := foldl_graph (fun r i => bumpProducer_graph i) _ _
  have hgraph : ((inputs.foldl bumpProducer ⟨g₂, r.versions⟩).bumpUsers output).graph = g₂ :=
    (bumpUsers_graph _).trans hmid
  have hversion : ∀ o', r.version o' + (g₂.consumers output).count o' ≤
      ((inputs.foldl bumpProducer ⟨g₂, r.versions⟩).bumpUsers output).version o' := by
    intro o'
    rw [version_bumpUsers, hmid]
    exact Nat.add_le_add_right (version_le_bumpProducers o' inputs ⟨g₂, r.versions⟩) _
  refine ⟨fun {o' op'} ho' => ?_, ?_, fun ho₁ ho' => (Nat.le_add_right ..).trans (hversion _),
    fun {o' op₁ op'} ho₁ ho' hv => ?_⟩
  · rw [hgraph] at ho'
    by_cases hne : o' = r.graph.nextOp
    · exact .inr hne.ge
    · exact .inl ⟨op', (hadded.others o' hne) ▸ ho'⟩
  · rw [hgraph, hadded.nextOp_eq]
    exact Nat.le_succ _
  · rw [hgraph] at ho' ⊢
    have hold := hadded.others o' (Nat.ne_of_lt (h.numbered o' op₁ ho₁))
    have hsame : op' = op₁ := Option.some.inj (ho'.symm.trans (hold.trans ho₁))
    subst hsame
    -- an op that reads the result was counted, and no other op produced it
    have hunread : output ∉ op'.inputs := by
      intro hmem
      have hpos := List.count_pos_iff.2 (hadded.linked.reads.2 ⟨op', ho', hmem⟩)
      have hle := hversion o'
      omega
    have hunmade : output ∉ op'.outputs := by
      intro hmem
      obtain ⟨x, hx, hproducer⟩ := h.linked.hasTensor_of_output ho₁ hmem
      rw [(isFree_iff.1 hadded.free x hx).1] at hproducer
      cases hproducer
    refine ⟨rfl, alikeAround_of_bare hkept fun t ht => hadded.bare_eq t ?_⟩
    rintro rfl
    exact ht.elim hunread hunmade

theorem Inserts.counts {kinds : List OpKind} (hi : Inserts op kinds r r') (h : r.graph.WellFormed) : Counts r r' := by
  induction hi with
  | done r => exact .nextTemp r r.graph.nextTemp
  | @add kind kinds inputs output n r r₁ r' hfirst hrest ih =>
    have hn := h.nextTemp n
    obtain ⟨h₁, -⟩ := insertAs_weight hn hfirst
    exact ((Counts.nextTemp r n).trans (counts_insertAs hn hfirst) h.numbered).trans (ih h₁) h.numbered

/-- Replacing all uses of a tensor counts a change around each op that read it. -/
theorem counts_replaceAllUses (h : r.graph.WellFormed) {old new : TensorId}
    (hrun : (replaceAllUses old new).run r = (.ok (), r')) : Counts r r' := by
  have hb := replaceAllUses_ok h.linked hrun
  replace hrun := Stateful.of_get_bind hrun
  obtain ⟨_, r₁, hcall, hrun⟩ := Stateful.run_bind_ok.1 hrun
  cases hrun
  have hgraph : ((r.graph.consumers old).foldl bump r₁).graph = r₁.graph := foldl_graph (f := bump) (fun _ _ => rfl) _ r₁
  rw [hgraph] at hb
  have hversions : r₁.version = r.version := by
    funext o'
    rw [version, versions_onGraph hcall, version]
  have hversion : ∀ o', ((r.graph.consumers old).foldl bump r₁).version o' =
      r.version o' + (r.graph.consumers old).count o' := by
    intro o'
    rw [version_foldl_bump, hversions]
  refine ⟨fun ho' => ?_, ?_, fun _ _ => ?_, fun {o' op₁ op'} ho₁ ho' hv => ?_⟩
  · rw [hgraph] at ho'
    obtain ⟨op₁, ho₁, -⟩ := hb.op_of ho'
    exact .inl ⟨op₁, ho₁⟩
  · rw [hgraph, hb.frame]
  · rw [hversion]
    exact Nat.le_add_right ..
  · have hunread : old ∉ op₁.inputs := by
      intro hmem
      have hpos := List.count_pos_iff.2 (h.linked.reads.2 ⟨op₁, ho₁, hmem⟩)
      rw [hversion] at hv
      omega
    rw [hgraph, hb.op?_eq, ho₁, Option.map_some, rewire_of_not_mem hunread] at ho'
    cases ho'
    rw [hgraph]
    exact ⟨rfl, alikeAround_of_bare (by rw [hb.frame]) fun t _ => hb.bare_eq t⟩

/-- Erasing an op changes nothing around other ops: none of them reads or makes its results. -/
theorem counts_erase (h : r.graph.WellFormed) (hrun : (erase op).run r = (.ok (), r')) : Counts r r' := by
  obtain ⟨removed, r₁, hcall, hrest⟩ := Stateful.run_bind_ok.1 hrun
  cases hrest
  obtain ⟨hd, hfree⟩ := eraseOp_ok (Stateful.run_change_ok.1 (run_onGraph_ok hcall))
  have hversions : r₁.version = r.version := by
    funext o'
    rw [version, versions_onGraph hcall, version]
  have hgraph : ((removed.inputs.foldl bumpProducer r₁).forget op.id).graph = r₁.graph :=
    foldl_graph (fun r i => bumpProducer_graph i) _ r₁
  have hother : ∀ {o' op'}, r₁.graph.op? o' = some op' → o' ≠ op.id ∧ r.graph.op? o' = some op' := hd.op?_eq_some.1
  refine ⟨fun ho' => ?_, ?_, fun ho₁ ho' => ?_, fun {o' op₁ op'} ho₁ ho' _ => ?_⟩
  · rw [hgraph] at ho'
    exact .inl ⟨_, (hother ho').2⟩
  · rw [hgraph, hd.frame]
  · rw [hgraph] at ho'
    rw [version_forget _ (hother ho').1, ← hversions]
    exact version_le_bumpProducers _ _ _
  · rw [hgraph] at ho' ⊢
    obtain ⟨hne, hold⟩ := hother ho'
    refine ⟨Option.some.inj (hold.symm.trans ho₁), alikeAround_of_bare (by rw [hd.frame]) fun t ht =>
      hd.bare_eq fun hout => hne ?_⟩
    rcases ht with ht | ht
    · exact (consumedOutput?_eq_none.1 hfree t hout o' (h.linked.reads.2 ⟨op₁, ho₁, ht⟩)).trans (h.opId hd.found)
    · exact h.linked.producer_unique ho₁ hd.found ht hout

/-- Making tensors constants changes nothing else. -/
theorem makeConsts_ok {outputs : List (TensorId × HostTensor)} (hrun : (outputs.forM fun (output, value) => onGraph
      (Stateful.change fun g => do return ((), ← g.makeConst output value))).run r = (.ok (), r')) :
    r'.versions = r.versions ∧ (∀ o, r'.graph.op? o = r.graph.op? o) ∧ r'.graph.nextOp = r.graph.nextOp ∧
      r'.graph.kept = r.graph.kept ∧ (∀ t, r'.graph.info? t = r.graph.info? t) ∧
      ∀ t, t ∉ outputs.map Prod.fst → r'.graph.tensor? t = r.graph.tensor? t := by
  refine Stateful.run_forM_keeps (fun cur : Editor => cur.versions = r.versions ∧
    (∀ o, cur.graph.op? o = r.graph.op? o) ∧ cur.graph.nextOp = r.graph.nextOp ∧ cur.graph.kept = r.graph.kept ∧
    (∀ t, cur.graph.info? t = r.graph.info? t) ∧
    ∀ t, t ∉ outputs.map Prod.fst → cur.graph.tensor? t = r.graph.tensor? t) (fun e he {s s'} hs hstep => ?_)
    ⟨rfl, fun _ => rfl, rfl, rfl, fun _ => rfl, fun _ _ => rfl⟩ hrun
  obtain ⟨hversions, hop, hnext, hkept, hinfo, htensor⟩ := hs
  have hsame := versions_onGraph hstep
  obtain ⟨g₁, hmake, hpure⟩ := Outcome.bind_eq_ok.1 (Stateful.run_change_ok.1 (run_onGraph_ok hstep))
  cases hpure
  obtain ⟨x, hx, -, -, hg⟩ := makeConst_ok hmake
  refine ⟨hsame.trans hversions, fun o => ?_, ?_, ?_, fun t => ?_, fun t ht => ?_⟩
  · rw [hg]
    exact hop o
  · rw [hg]
    exact hnext
  · rw [hg]
    exact hkept
  · rw [hg, ← hinfo, info?, info?, tensor?_modifyTensor]
    split
    · rw [Option.map_map]
      rfl
    · rfl
  · have hne : e.1 ≠ t := fun heq => ht (heq ▸ List.mem_map_of_mem he)
    rw [hg, tensor?_modifyTensor, if_neg hne]
    exact htensor t ht

end Editor

namespace Pattern

open Editor

/-- Every action counts what it changes. -/
theorem Acts.counts (ha : Acts op r r') (h : r.graph.WellFormed) (ho : r.graph.op? op.id = some op) : Counts r r' := by
  cases ha with
  | replaces hdetach hinserts _ =>
    obtain ⟨h₁, -⟩ := detach_weight h ho hdetach
    exact (counts_detach h ho hdetach).1.trans (hinserts.counts h₁) h.numbered
  | @folds values r₁ hdetach hmake =>
    obtain ⟨hcounts, hgone, husers⟩ := counts_detach h ho hdetach
    obtain ⟨hversions, hop, hnext, hkept, hinfo, htensor⟩ := makeConsts_ok hmake
    have hversion : ∀ o, r'.version o = r₁.version o := fun o => by rw [version, hversions, version]
    refine ⟨fun ho' => hcounts.fresh (hop _ ▸ ho'), hnext ▸ hcounts.nextOp, fun ho₁ ho' => ?_, fun {o' op₁ op'} ho₁ ho' hv => ?_⟩
    · rw [hversion]
      exact hcounts.grows ho₁ (hop _ ▸ ho')
    · rw [hversion] at hv
      rw [hop] at ho'
      obtain ⟨rfl, halike⟩ := hcounts.same ho₁ ho' hv
      have hne : o' ≠ op.id := by
        rintro rfl
        rw [hgone] at ho'
        cases ho'
      -- what became constant was read by no op in its old version
      have hunread : ∀ t ∈ op'.inputs, t ∉ (op.outputs.zip values).map Prod.fst := by
        intro t ht hmem
        obtain ⟨e, he, rfl⟩ := List.mem_map.1 hmem
        have hlt := husers o' op' e.1 hne ho₁ (List.of_mem_zip he).1 ht
        omega
      refine ⟨rfl, fun t ht => (hinfo t).trans (halike.info t ht), fun t ht => ?_, hkept.trans halike.kept⟩
      rw [← halike.constant t ht, constantValue?, constantValue?, htensor t (hunread t ht)]
  | @drops input output r₁ huses herase =>
    have hb := replaceAllUses_ok h.linked huses
    exact (counts_replaceAllUses h huses).trans (counts_erase (h.rewires hb) herase) h.numbered

end Pattern

end TensorGraph
