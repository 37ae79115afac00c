import TensorGraph.Proofs.Placement.Placing

/-!
Automatic placement succeeds exactly if there are as many forward ops as virtual graphs, and what it gives is valid:
all virtual graphs are in use and no op reads from a later one. The balance by which stages are cut and dealt out has
no part in this.
-/
namespace TensorGraph

namespace Placement

open TensorGraph.Graph (Complete Moved)

variable {g g' : Graph} {l : List OpId} {n : Nat} {training : Bool} {balance : Balance} {p q : OpId}

/-- The forward ops of a graph. -/
def forwards (g : Graph) : List Op := g.ops.values.filter (·.phase = .forward)

/-- No forward op reads what an op of another phase gives. -/
def ForwardClosed (g : Graph) : Prop :=
  ∀ p q op op', g.Feeds p q → g.op? p = some op → g.op? q = some op' → op'.phase = .forward → op.phase = .forward

/-! ## Forward ops in order -/

section Ordered

variable (hc : Complete g l) (hl : g.Linked)
include hc hl

theorem mem_forwardOps {e : Op × Nat} : e ∈ forwardOps (l.filterMap g.op?) ↔
    g.op? e.1.id = some e.1 ∧ e.1.phase = .forward ∧ e.2 = l.idxOf e.1.id := by
  obtain ⟨op, i⟩ := e
  have hids : ∀ j : Nat, ((l.filterMap g.op?)[j]?).map (·.id) = l[j]? := by
    intro j
    rw [← List.getElem?_map, hc.map_id hl]
  have hindex : ∀ {j : Nat} {op : Op}, (l.filterMap g.op?)[j]? = some op → l.idxOf op.id = j := by
    intro j op hj
    have hlj := hids j
    rw [hj, Option.map_some] at hlj
    obtain ⟨hlt, hval⟩ := List.getElem?_eq_some_iff.1 hlj.symm
    rw [← hval]
    exact hc.schedule.nodup.idxOf_getElem j hlt
  rw [forwardOps, List.mem_filter, List.mk_mem_zipIdx_iff_getElem?, decide_eq_true_eq]
  constructor
  · rintro ⟨hi, hphase⟩
    exact ⟨(hc.mem_ops hl).1 (List.mem_of_getElem? hi), hphase, (hindex hi).symm⟩
  · rintro ⟨hop, hphase, hi⟩
    obtain ⟨j, hj⟩ := List.mem_iff_getElem?.1 ((hc.mem_ops hl).2 hop)
    simp only [hindex hj] at hi
    exact ⟨hi ▸ hj, hphase⟩

theorem forwardOps_pairwise :
    (forwardOps (l.filterMap g.op?)).Pairwise fun a b => l.idxOf a.1.id < l.idxOf b.1.id := by
  have hzip : (l.filterMap g.op?).zipIdx.Pairwise fun a b => a.2 < b.2 := by
    refine List.pairwise_map.1 ?_
    change ((l.filterMap g.op?).zipIdx.map Prod.snd).Pairwise (· < ·)
    rw [List.zipIdx_map_snd]
    exact List.pairwise_lt_range'
  refine (hzip.filter _).imp_of_mem fun {a b} ha hb hab => ?_
  rw [((mem_forwardOps hc hl).1 ha).2.2, ((mem_forwardOps hc hl).1 hb).2.2] at hab
  exact hab

theorem forwardOps_perm : ((forwardOps (l.filterMap g.op?)).map (·.1)).Perm (forwards g) := by
  have hmap : (forwardOps (l.filterMap g.op?)).map (·.1) = (l.filterMap g.op?).filter (·.phase = .forward) := by
    conv_rhs => rw [← List.zipIdx_map_fst 0 (l.filterMap g.op?), List.filter_map]
    rfl
  rw [hmap]
  exact (hc.perm_values hl).filter _

end Ordered

/-! ## Places -/

/-- Places for the forward ops of a graph: one for each of them, within the range, none of which is left free, and none
before that of an op that feeds it. -/
structure Spread (g : Graph) (n : Nat) (placed : List (OpId × Int)) : Prop where
  nodup : (placed.map (·.1)).Nodup
  all : ∀ op, g.op? op.id = some op → op.phase = .forward → ∃ v : Nat, v < n ∧ (op.id, (v : Int)) ∈ placed
  only : ∀ o v, (o, v) ∈ placed → ∃ op, g.op? o = some op ∧ op.phase = .forward
  used : ∀ v < n, ∃ o, (o, (v : Int)) ∈ placed
  forth : ∀ p q v w, g.Feeds p q → (p, v) ∈ placed → (q, w) ∈ placed → v ≤ w

theorem Arranged.mergeSort {pos : OpId → Nat} {entries : List (OpId × Nat)} {stages : List Stage}
    (h : Arranged g pos entries stages) :
    Arranged g pos entries (stages.mergeSort fun a b => a.position ≤ b.position) := by
  have hperm := List.mergeSort_perm stages fun a b => a.position ≤ b.position
  exact ⟨fun s hs => h.runs s (hperm.mem_iff.1 hs), (hperm.flatMap_right _).trans h.perm⟩

theorem pairwise_position (stages : List Stage) :
    (stages.mergeSort fun a b => a.position ≤ b.position).Pairwise fun a b => a.position ≤ b.position := by
  have htrans : ∀ a b c : Stage, decide (a.position ≤ b.position) = true → decide (b.position ≤ c.position) = true →
      decide (a.position ≤ c.position) = true := by
    simp only [decide_eq_true_eq]
    omega
  have htotal : ∀ a b : Stage, (decide (a.position ≤ b.position) || decide (b.position ≤ a.position)) = true := by
    simp only [Bool.or_eq_true, decide_eq_true_eq]
    omega
  exact (List.pairwise_mergeSort htrans htotal stages).imp of_decide_eq_true

/-- The ops of stages with the virtual graphs of their stages. -/
def onStages (z : List (Stage × Nat)) : List (OpId × Int) :=
  z.flatMap fun e => e.1.ops.map fun a => (a.1, (e.2 : Int))

theorem mem_onStages {z : List (Stage × Nat)} {o : OpId} {w : Int} :
    (o, w) ∈ onStages z ↔ ∃ s v, (s, v) ∈ z ∧ o ∈ s.ids ∧ w = v := by
  simp only [onStages, Stage.ids, List.mem_flatMap, List.mem_map, Prod.mk.injEq]
  constructor
  · rintro ⟨⟨s, v⟩, hz, a, ha, rfl, rfl⟩
    exact ⟨s, v, hz, ⟨a, ha, rfl⟩, rfl⟩
  · rintro ⟨s, v, hz, ⟨a, ha, rfl⟩, rfl⟩
    exact ⟨(s, v), hz, a, ha, rfl, rfl⟩

theorem onStages_fst (z : List (Stage × Nat)) :
    (onStages z).map (·.1) = ((z.map (·.1)).flatMap (·.ops)).map (·.1) := by
  simp only [onStages, List.map_flatMap, List.flatMap_map, List.map_map, Function.comp_def]

theorem zip_pairwise {α β : Type} {R : α → α → Prop} {S : β → β → Prop} : ∀ {l : List α} {m : List β},
    l.Pairwise R → m.Pairwise S → (l.zip m).Pairwise fun a b => R a.1 b.1 ∧ S a.2 b.2
  | [], _, _, _ => by simp
  | _ :: _, [], _, _ => by simp
  | a :: l, b :: m, hl, hm => by
    rw [List.pairwise_cons] at hl hm
    rw [List.zip_cons_cons, List.pairwise_cons]
    refine ⟨?_, zip_pairwise hl.2 hm.2⟩
    rintro ⟨c, d⟩ hcd
    exact ⟨hl.1 c (List.of_mem_zip hcd).1, hm.1 d (List.of_mem_zip hcd).2⟩

theorem rel_of_pairwise {α : Type} {R : α → α → Prop} {l : List α} {a b : α} (h : l.Pairwise R) (ha : a ∈ l)
    (hb : b ∈ l) : a = b ∨ R a b ∨ R b a := by
  induction h with
  | nil => cases ha
  | cons hfirst _ ih =>
    rcases List.mem_cons.1 ha with rfl | ha' <;> rcases List.mem_cons.1 hb with rfl | hb'
    · exact .inl rfl
    · exact .inr (.inl (hfirst b hb'))
    · exact .inr (.inr (hfirst a ha'))
    · exact ih ha' hb'

/-- Stages in the order of their first ops, each with a virtual graph not before those of the stages before it. -/
theorem spread_of_zip {pos : OpId → Nat} {entries : List (OpId × Nat)} {stages : List Stage} {vs : List Nat}
    (h : Arranged g pos entries stages) (hsorted : stages.Pairwise fun a b => a.position ≤ b.position)
    (hentries : ∀ o, o ∈ entries.map (·.1) ↔ ∃ op, g.op? o = some op ∧ op.phase = .forward)
    (hnodup : (entries.map (·.1)).Nodup) (hlen : vs.length = stages.length) (hasc : vs.Pairwise (· ≤ ·))
    (hrange : ∀ v ∈ vs, v < n) (hall : ∀ v < n, v ∈ vs) : Spread g n (onStages (stages.zip vs)) := by
  have hfst : ((onStages (stages.zip vs)).map (·.1)).Perm (entries.map (·.1)) := by
    have hstages : (stages.zip vs).map (·.1) = stages := List.map_fst_zip (by omega)
    rw [onStages_fst, hstages]
    exact h.perm.map _
  have hdistinct := hfst.nodup_iff.2 hnodup
  have hzip := zip_pairwise hsorted hasc
  refine ⟨hdistinct, ?_, ?_, ?_, ?_⟩
  · intro op hop hphase
    have hmem := hfst.mem_iff.2 ((hentries op.id).2 ⟨op, hop, hphase⟩)
    obtain ⟨⟨o, w⟩, ho, heq⟩ := List.mem_map.1 hmem
    obtain ⟨s, v, hz, hos, rfl⟩ := mem_onStages.1 ho
    exact ⟨v, hrange v (List.of_mem_zip hz).2, heq ▸ ho⟩
  · intro o v ho
    exact (hentries o).1 (hfst.mem_iff.1 (List.mem_map.2 ⟨(o, v), ho, rfl⟩))
  · intro v hv
    obtain ⟨i, hi⟩ := List.mem_iff_getElem?.1 (hall v hv)
    obtain ⟨hlt, hval⟩ := List.getElem?_eq_some_iff.1 hi
    have hz : (stages[i], v) ∈ stages.zip vs := by
      rw [← hval, ← List.getElem_zip (h := by rw [List.length_zip]; omega)]
      exact List.getElem_mem _
    obtain ⟨e, rest, he⟩ := List.exists_cons_of_ne_nil (h.runs _ (List.of_mem_zip hz).1).ops_ne_nil
    exact ⟨e.1, mem_onStages.2 ⟨stages[i], v, hz, by simp [Stage.ids, he], rfl⟩⟩
  · intro p q v w hf hp hq
    obtain ⟨s, v', hs, hps, rfl⟩ := mem_onStages.1 hp
    obtain ⟨t, w', ht, hqt, rfl⟩ := mem_onStages.1 hq
    rcases (h.runs t (List.of_mem_zip ht).1).fed hqt hf with hpt | hlt
    · -- both ops are in one stage
      have hsame := List.inj_on_of_nodup_map hdistinct hp (mem_onStages.2 ⟨t, w', ht, hpt, rfl⟩) rfl
      rw [Prod.mk.injEq] at hsame
      omega
    · have hle := (h.runs s (List.of_mem_zip hs).1).position_le hps
      rcases rel_of_pairwise hzip hs ht with heq | ⟨-, hvw⟩ | ⟨hback, -⟩
      · cases heq
        omega
      · exact_mod_cast hvw
      · simp only at hback
        omega

/-- Enough stages in the order of their first ops are spread over the virtual graphs. -/
theorem deal_spread (balance : Balance) {pos : OpId → Nat} {entries : List (OpId × Nat)} {stages : List Stage}
    (total : Nat) (h : Arranged g pos entries stages) (hsorted : stages.Pairwise fun a b => a.position ≤ b.position)
    (hentries : ∀ o, o ∈ entries.map (·.1) ↔ ∃ op, g.op? o = some op ∧ op.phase = .forward)
    (hnodup : (entries.map (·.1)).Nodup) (hn : 0 < n) (hlen : n ≤ stages.length) :
    Spread g n ((deal balance n total stages 0 0).map fun (id, v) => (id, Int.ofNat v)) := by
  obtain ⟨vs, hvs, hasc, hrange, hall, hdeal⟩ := deal_eq balance (n := n) stages 0 0 hn
  have hplaces : (deal balance n total stages 0 0).map (fun (id, v) => (id, Int.ofNat v)) = onStages (stages.zip vs) := by
    rw [hdeal, onStages, List.map_flatMap]
    simp only [List.map_map, Function.comp_def]
    rfl
  rw [hplaces]
  exact spread_of_zip h hsorted hentries hnodup hvs hasc (fun v hv => (hrange v hv).2)
    fun v hv => hall (by omega) v (Nat.zero_le v) hv

/-- The forward ops with their costs. -/
def forwardEntries (g : Graph) (order : List Op) (training : Bool) : List (OpId × Nat) :=
  (forwardOps order).map fun e => (e.1.id, weight g training e.1)

section Entries

variable (hc : Complete g l) (hl : g.Linked)
include hc hl

theorem group_ok (hfwd : ForwardClosed g)
    (hcost : ∀ op ∈ g.ops.values, g.cost op training = .ok (weight g training op)) :
    ∃ s, group g (l.filterMap g.op?) training = .ok s ∧
      Arranged g (fun id => l.idxOf id) (forwardEntries g (l.filterMap g.op?) training) s.stages := by
  have hmem := @mem_forwardOps g l hc hl
  have hgroup := foldlM_add (g := g) (c := weight g training) Grouping.Holds.empty
    (fun e he => ⟨(hmem.1 he).2.2, (hmem.1 he).1, hcost _ (Dict.mem_values.2 ⟨_, (hmem.1 he).1⟩)⟩)
    (forwardOps_pairwise hc hl) nofun
    (fun b hb p hf => by
      -- what feeds a forward op is a forward op and runs before it
      obtain ⟨hop, hphase, -⟩ := hmem.1 hb
      obtain ⟨op', hop'⟩ := hl.op_of_feeds hf
      have hid := hl.opId hop'
      refine ⟨hc.idxOf_lt hf, .inr ⟨(op', l.idxOf op'.id), hmem.2 ⟨?_, ?_, rfl⟩, hid⟩⟩
      · rw [hid, hop']
      · exact hfwd p _ op' b.1 hf hop' hop hphase)
  obtain ⟨s, hs, harr, -⟩ := hgroup
  exact ⟨s, hs, by simpa [forwardEntries] using harr⟩

theorem length_forwardEntries :
    (forwardEntries g (l.filterMap g.op?) training).length = (forwards g).length := by
  rw [forwardEntries, List.length_map, ← (forwardOps_perm hc hl).length_eq, List.length_map]

theorem sum_forwardEntries_le : sumOf ((forwardEntries g (l.filterMap g.op?) training).map (·.2)) ≤
    (g.ops.values.map (weight g training)).sum := by
  have heq : (forwardEntries g (l.filterMap g.op?) training).map (·.2) =
      ((forwardOps (l.filterMap g.op?)).map (·.1)).map (weight g training) := by
    rw [forwardEntries, List.map_map, List.map_map]
    rfl
  rw [heq, sumOf_eq_sum, ((forwardOps_perm hc hl).map _).sum_eq]
  exact sum_sublist_le _ List.filter_sublist

theorem nodup_forwardEntries : ((forwardEntries g (l.filterMap g.op?) training).map (·.1)).Nodup := by
  rw [forwardEntries, List.map_map]
  refine List.pairwise_map.2 ((forwardOps_pairwise hc hl).imp fun {a b} hab heq => ?_)
  simp only [Function.comp_apply] at heq
  rw [heq] at hab
  omega

theorem mem_forwardEntries {o : OpId} : o ∈ (forwardEntries g (l.filterMap g.op?) training).map (·.1) ↔
    ∃ op, g.op? o = some op ∧ op.phase = .forward := by
  rw [forwardEntries, List.map_map, List.mem_map]
  constructor
  · rintro ⟨e, he, rfl⟩
    obtain ⟨hop, hphase, -⟩ := (mem_forwardOps hc hl).1 he
    exact ⟨e.1, hop, hphase⟩
  · rintro ⟨op, hop, hphase⟩
    have hid := hl.opId hop
    exact ⟨(op, l.idxOf op.id), (mem_forwardOps hc hl).2 ⟨by rw [hid, hop], hphase, rfl⟩, hid⟩

/-- Automatic places are spread over the virtual graphs, or there are fewer forward ops than these. -/
theorem automatic_cases (balance : Balance) (hfwd : ForwardClosed g) (hn : 0 < n) {total : Nat}
    (htotal : g.totalCost training = .ok total) :
    (n ≤ (forwards g).length ∧
      ∃ placed k, automatic balance g (l.filterMap g.op?) n training = .ok (placed, k) ∧ Spread g n placed) ∨
    ((forwards g).length < n ∧
      ∃ cause, automatic balance g (l.filterMap g.op?) n training = .fail (.placement cause)) := by
  obtain ⟨hcost, rfl, hlimit⟩ := totalCost_eq_ok htotal
  obtain ⟨grouping, hgroup, harr⟩ := group_ok hc hl hfwd hcost
  have hsum := lt_of_le_of_lt (sum_forwardEntries_le hc hl) hlimit
  have hfew := harr.length_le
  rw [length_forwardEntries hc hl] at hfew
  unfold automatic
  rw [hgroup, hc.map_id hl]
  rcases split_arranged balance n (fun hf => hc.idxOf_lt hf) hsum (n - grouping.stages.length) harr with
    ⟨stages, hsplit, hstages, hlen⟩ | ⟨hmissing, cause, hsplit⟩
  · have hcount := hstages.length_le
    rw [length_forwardEntries hc hl] at hcount
    have hmerged := hstages.mergeSort
    have hlength : (stages.mergeSort fun a b => a.position ≤ b.position).length = stages.length :=
      List.length_mergeSort stages
    obtain ⟨total, hword⟩ : ∃ total,
        Word.sum ((stages.mergeSort fun a b => a.position ≤ b.position).map (·.cost)) = .ok total :=
      ⟨_, Word.nat_eq_ok_iff.2 ⟨hmerged.sum_costs ▸ hsum, rfl⟩⟩
    have hspread := deal_spread balance total hmerged (pairwise_position stages) (fun o => mem_forwardEntries hc hl)
      (nodup_forwardEntries hc hl) hn (by omega)
    refine .inl ⟨by omega, _, stages.length, ?_, hspread⟩
    change (split balance _ n _ _ >>= _) = _
    rw [hsplit]
    change (Word.sum _ >>= _) = _
    rw [hword, ← hlength]
    rfl
  · rw [length_forwardEntries hc hl] at hmissing
    refine .inr ⟨by omega, cause, ?_⟩
    change (split balance _ n _ _ >>= _) = _
    rw [hsplit]
    rfl

end Entries

/-! ## Validity -/

/-- What a valid placement of the forward ops comes to: all are within the range, each virtual graph has one, and none
stands before what feeds it. -/
structure Placed (g : Graph) (n : Nat) : Prop where
  inRange : ∀ o op, g.op? o = some op → op.phase = .forward → ∃ v : Nat, v < n ∧ op.virtualGraph = some (v : Int)
  used : ∀ v < n, ∃ o op, g.op? o = some op ∧ op.phase = .forward ∧ op.virtualGraph = some (v : Int)
  forth : ∀ p q op op' v w, g.Feeds p q → g.op? p = some op → op.phase = .forward → op.virtualGraph = some v →
    g.op? q = some op' → op'.phase = .forward → op'.virtualGraph = some w → v ≤ w

theorem placeAll_placed {placed : List (OpId × Int)} (h : Spread g n placed) (order : List Op) (hl : g.Linked) :
    Placed (placeAll g order placed) n := by
  have hmoved := moved_placeAll g order placed
  have hplace : ∀ {o op v}, g.op? o = some op → op.phase = .forward → (o, v) ∈ placed →
      (placeAll g order placed).op? o = some { op with virtualGraph := some v } := by
    intro o op v hop hphase hv
    have hphase' : ({ op with virtualGraph := some v } : Op).phase = .forward := hphase
    refine op?_placeFollowers hphase' _ ?_
    rw [(op?_foldl_place o h.nodup).1 v hv, hop, Option.map_some]
  have hfind : ∀ {o op'}, (placeAll g order placed).op? o = some op' → op'.phase = .forward →
      ∃ v : Nat, v < n ∧ (o, (v : Int)) ∈ placed ∧ op'.virtualGraph = some (v : Int) := by
    intro o op' hop' hphase
    obtain ⟨op, hop, heq⟩ := hmoved.op hop'
    have hphase' : op.phase = .forward := by rw [heq] at hphase; exact hphase
    have hid := hl.opId hop
    obtain ⟨v, hv, hmem⟩ := h.all op (by rw [hid, hop]) hphase'
    rw [hid] at hmem
    rw [hplace hop hphase' hmem] at hop'
    cases hop'
    exact ⟨v, hv, hmem, rfl⟩
  refine ⟨?_, ?_, ?_⟩
  · intro o op hop hphase
    obtain ⟨v, hv, -, hgraph⟩ := hfind hop hphase
    exact ⟨v, hv, hgraph⟩
  · intro v hv
    obtain ⟨o, ho⟩ := h.used v hv
    obtain ⟨op, hop, hphase⟩ := h.only o v ho
    exact ⟨o, _, hplace hop hphase ho, hphase, rfl⟩
  · intro p q op op' v w hf hp hpphase hpv hq hqphase hqw
    obtain ⟨v', -, hv', hgraph⟩ := hfind hp hpphase
    obtain ⟨w', -, hw', hgraph'⟩ := hfind hq hqphase
    cases hpv.symm.trans hgraph
    cases hqw.symm.trans hgraph'
    exact h.forth p q _ _ (hmoved.feeds hf) hv' hw'

/-- A placed op passes its check. -/
theorem checkOp_ok (h : Placed g n) (hfwd : ForwardClosed g) {o : OpId} {op : Op}
    (hop : g.op? o = some op) (hphase : op.phase = .forward) : checkOp g n op = .ok (op.virtualGraph.getD 0) := by
  obtain ⟨v, hv, hgraph⟩ := h.inRange o op hop hphase
  have hfind : ((g.dependencies op).toList.filterMap g.op?).find? (fun p => (v : Int) < p.virtualGraph.getD 0) = none := by
    rw [List.find?_eq_none]
    intro p hp
    obtain ⟨i, hi, hpi⟩ := List.mem_filterMap.1 hp
    obtain ⟨-, t, ht, hprod⟩ := Graph.mem_dependencies.1 hi
    have hf : g.Feeds i o := ⟨op, hop, t, ht, hprod⟩
    have hpphase := hfwd i o p op hf hpi hop hphase
    obtain ⟨w, -, hw⟩ := h.inRange i p hpi hpphase
    have hle := h.forth i o p op _ _ hf hpi hpphase hw hop hphase hgraph
    rw [hw, decide_eq_true_eq, Option.getD_some]
    omega
  have hrange : ¬ ((v : Int) < 0 ∨ (n : Int) ≤ v) := by omega
  rw [checkOp, hgraph]
  change (if (v : Int) < 0 ∨ (n : Int) ≤ v then _ else _) = _
  rw [if_neg hrange, hfind]
  rfl

theorem validate_ok (h : Placed g n) (hfwd : ForwardClosed g) : validate g n = .ok () := by
  have hchecks : (g.ops.values.filter (·.phase = .forward)).mapM (checkOp g n) =
      .ok ((forwards g).map fun op => op.virtualGraph.getD 0) := by
    refine Outcome.mapM_of_forall fun op hop => ?_
    obtain ⟨hvalue, hphase⟩ := List.mem_filter.1 hop
    obtain ⟨o, ho⟩ := Dict.mem_values.1 hvalue
    exact checkOp_ok h hfwd ho (of_decide_eq_true hphase)
  have hfree : (List.range (min n (((forwards g).map fun op => op.virtualGraph.getD 0).length + 1))).find?
      (fun v => !((forwards g).map fun op => op.virtualGraph.getD 0).contains (Int.ofNat v)) = none := by
    rw [List.find?_eq_none]
    intro v hv
    obtain ⟨o, op, hop, hphase, hgraph⟩ := h.used v (by have := List.mem_range.1 hv; omega)
    have hmem : op ∈ forwards g := List.mem_filter.2 ⟨Dict.mem_values.2 ⟨o, hop⟩, decide_eq_true hphase⟩
    have hused : Int.ofNat v ∈ (forwards g).map fun op => op.virtualGraph.getD 0 :=
      List.mem_map.2 ⟨op, hmem, by rw [hgraph]; rfl⟩
    simpa using hused
  rw [validate, hchecks]
  refine Outcome.bind_eq_ok.2 ⟨_, rfl, ?_⟩
  rw [hfree]
  rfl

theorem ForwardClosed.moved (h : ForwardClosed g) (hm : Moved g g') : ForwardClosed g' := by
  intro p q op op' hf hp hq hphase
  obtain ⟨op₁, hp₁, heq⟩ := hm.op hp
  obtain ⟨op₂, hq₂, heq'⟩ := hm.op hq
  rw [heq'] at hphase
  rw [heq]
  exact h p q op₁ op₂ (hm.feeds hf) hp₁ hq₂ hphase

/-- Automatic placement on `n` virtual graphs succeeds exactly if there are `n` forward ops, whatever balance it is
made by. It moves ops and changes nothing else, the forward ops are then validly placed, and if it fails then with a
fault of placement and on an unchanged graph. -/
theorem automatic_placement_complete_and_valid (balance : Balance) (n : Nat) (training : Bool) (b : Build)
    (hg : b.graph.WellFormed) (ha : b.graph.Acyclic) (hfwd : ForwardClosed b.graph) (hn : 1 ≤ n)
    (hcost : ∃ total, b.graph.totalCost training = .ok total) :
    ((∃ summary, ((runBy balance .automatic n training).run b).1 = .ok summary) ↔ n ≤ (forwards b.graph).length) ∧
      (∀ summary b', (runBy balance .automatic n training).run b = (.ok summary, b') →
        Moved b.graph b'.graph ∧ Placed b'.graph n ∧ validate b'.graph n = .ok ()) ∧
      ∀ e b', (runBy balance .automatic n training).run b = (.error e, b') →
        (∃ cause, e = .error (.placement cause)) ∧ b' = b := by
  obtain ⟨total, htotal⟩ := hcost
  obtain ⟨l, hl⟩ := ha.order_ok hg.linked
  have hc := Graph.order_complete hg.linked hl
  have horder : b.graph.orderedOps = .ok (l.filterMap b.graph.op?) := by
    rw [Graph.orderedOps, hl]
    rfl
  rcases automatic_cases hc hg.linked balance hfwd hn htotal with ⟨hle, placed, k, hplaces, hspread⟩ | ⟨hlt, cause, hplaces⟩
  · have hmoved := moved_placeAll b.graph (l.filterMap b.graph.op?) placed
    have hplaced := placeAll_placed hspread (l.filterMap b.graph.op?) hg.linked
    have hvalid := validate_ok hplaced (hfwd.moved hmoved)
    obtain ⟨s, b₁, hrun, hb₁⟩ : ∃ s b₁, (runBy balance .automatic n training).run b = (.ok s, b₁) ∧
        b₁.graph = placeAll b.graph (l.filterMap b.graph.op?) placed :=
      ⟨⟨k, n, _⟩, _, runBy_eq_ok.2 ⟨_, placed, horder, hplaces, hvalid,
        costs_ok ((totalCost_moved hmoved).trans htotal), rfl, rfl⟩, rfl⟩
    refine ⟨⟨fun _ => hle, fun _ => ⟨_, by rw [hrun]⟩⟩, fun summary b' h => ?_, fun e b' h => ?_⟩
    · rw [hrun] at h
      cases h
      rw [hb₁]
      exact ⟨hmoved, hplaced, hvalid⟩
    · rw [hrun] at h
      cases h
  · have hrun : (runBy balance .automatic n training).run b = (.error (.error (.placement cause)), b) :=
      runBy_of_error horder hplaces
    refine ⟨⟨fun ⟨_, h⟩ => ?_, fun h => by omega⟩, fun summary b' h => ?_, fun e b' h => ?_⟩
    · rw [hrun] at h
      cases h
    · rw [hrun] at h
      cases h
    · rw [hrun] at h
      cases h
      exact ⟨⟨cause, rfl⟩, rfl⟩

/-- Two branches from one stream that are joined, and a loss of what they give. -/
def branches : Graph :=
  ([.addTensor "x" ⟨.float, [4]⟩ .stream none, .addOp (.unary .relu) ["x"] ["a"] .forward,
    .addOp (.unary .exp) ["x"] ["b"] .forward, .addOp (.binary .add) ["a", "b"] ["c"] .forward,
    .addOp (.unary .neg) ["c"] ["d"] .loss] : List Graph.Edit).foldl (fun g e => (e.call.run g).2) .empty

theorem branches_wellFormed : branches.WellFormed := by
  have h : Graph.Edited Graph.empty branches :=
    .call _ (.call _ (.call _ (.call _ (.call _ .start trivial) trivial) trivial) trivial) trivial
  exact (h.sound .empty).wellFormed

theorem branches_forwardClosed : ForwardClosed branches := by
  have h : ∀ a ∈ branches.ops.values, ∀ b ∈ branches.ops.values, b.phase = .forward → ∀ t ∈ b.inputs,
      branches.producer? t = some a.id → a.phase = .forward := by decide
  rintro p q op op' ⟨op'', hq', t, ht, hp'⟩ hp hq hphase
  cases hq.symm.trans hq'
  refine h op (Dict.mem_values.2 ⟨p, hp⟩) op' (Dict.mem_values.2 ⟨q, hq⟩) hphase t ht ?_
  rw [branches_wellFormed.opId hp, hp']

/-- Three forward ops are placed on three virtual graphs, but not on four. -/
theorem automatic_placement_of_branches :
    (∃ summary, ((run .automatic 3 true).run ⟨branches, []⟩).1 = .ok summary) ∧
      ¬ ∃ summary, ((run .automatic 4 true).run ⟨branches, []⟩).1 = .ok summary := by
  have ha : branches.Acyclic :=
    (Graph.order_complete branches_wellFormed.linked (by decide : branches.order = .ok [0, 1, 2, 3])).acyclic
  have hcost : ∃ total, branches.totalCost true = .ok total := ⟨32, by decide⟩
  have h := fun n hn => automatic_placement_complete_and_valid .double n true ⟨branches, []⟩ branches_wellFormed ha
    branches_forwardClosed hn hcost
  exact ⟨(h 3 (by decide)).1.2 (by decide), fun hok => absurd ((h 4 (by decide)).1.1 hok) (by decide)⟩

end Placement

end TensorGraph
