import Mathlib.Algebra.Order.BigOperators.Group.List
import TensorGraph.Proofs.Pattern.Action

/-!
The weight of a graph: how much patterns can still do. Each op weighs between one and seven, and every success of a
built-in pattern on a well-formed graph leaves a well-formed graph of less weight, although it may leave more ops.
-/
namespace TensorGraph

namespace Dict

variable {κ α : Type} [Ord κ] [Std.TransOrd κ] [Std.LawfulEqOrd κ] [DecidableEq κ] {d : Dict κ α} {k : κ} {v : α}

theorem perm_values_insert (h : d.get? k = none) : (d.insert k v).values.Perm (v :: d.values) := by
  have hperm := perm_of_get? (d := d.insert k v) (k := k) (v := v) (by rw [get?_insert, if_pos rfl])
  rw [erase_insert, erase_of_get?_eq_none h] at hperm
  exact hperm.map Prod.snd

end Dict

open TensorGraph.Graph

namespace Graph

variable {g g' : Graph} {o : OpId} {op : Op} {kind : OpKind} {inputs : List TensorId} {output : TensorId}
  {phase : Phase} {info : TensorInfo}

/-! ## Well-formed graphs -/

namespace WellFormed

theorem numbered (h : g.WellFormed) : g.Numbered := fun _ _ => h.opBound

theorem type_of_producer (h : g.WellFormed) {t : TensorId} {x : Tensor} (hx : g.tensor? t = some x)
    (hp : x.producer ≠ none) : x.type = .actGrad := by
  obtain ⟨o, ho⟩ := Option.ne_none_iff_exists'.1 hp
  exact h.produced hx ho

/-- A change keeps a graph well-formed if it keeps the tables in step and makes neither streams nor producers of other
tensors than computed ones. -/
theorem of_linked (h : g.WellFormed) (hl : g'.Linked) (hn : g'.Numbered)
    (htensor : ∀ {t x'}, g'.tensor? t = some x' → (x'.producer ≠ none → x'.type = .actGrad) ∧
      (x'.type = .stream → ∃ x, g.tensor? t = some x ∧ x.type = .stream)) (hs : g'.streams = g.streams) :
    g'.WellFormed where
  opId := hl.opId
  tensorId := hl.tensorId
  opBound := hn _ _
  inputs ho ht := hasTensor_iff.2 (hl.hasTensor_of_input ho ht)
  outputs ho ht := by
    obtain ⟨x, hx, -⟩ := hl.hasTensor_of_output ho ht
    exact hasTensor_iff.2 ⟨x, hx⟩
  reads := hl.reads
  makes := hl.makes
  produced hx hp := (htensor hx).1 (by rw [hp]; exact nofun)
  streams hx hst := by
    obtain ⟨x, hx, hst⟩ := (htensor hx).2 hst
    rw [hs]
    exact h.streams hx hst

theorem addOp (h : g.WellFormed) (ha : AddedOp g kind inputs output phase info g') : g'.WellFormed := by
  refine h.of_linked (h.linked.addOp h.numbered.unused ha) (fun o op ho => ?_) (fun {t x'} hx' => ?_) ha.streams_eq
  · rw [ha.nextOp_eq]
    rw [ha.op?_eq] at ho
    split at ho
    · rename_i heq
      exact heq ▸ Nat.lt_succ_self _
    · exact Nat.lt_succ_of_lt (h.opBound ho)
  · obtain ⟨x, hx, rfl⟩ | ⟨-, -, -, rfl⟩ := ha.lookup hx'
    · refine ⟨fun hp => ?_, fun hst => ⟨x, hx, hst⟩⟩
      by_cases ht : t = output
      · subst ht
        exact (isFree_iff.1 ha.free x hx).2
      · simp only [ht, if_false] at hp
        have htype := h.type_of_producer hx hp
        exact htype
    · exact ⟨fun _ => rfl, fun hst => by cases hst⟩

theorem dropOp (h : g.WellFormed) {id : OpId} {erased : Bool} (hd : DroppedOp g id op erased g')
    (hfree : erased = true → ∀ t ∈ op.outputs, ∀ o ∈ g.consumers t, o = op.id) : g'.WellFormed := by
  refine h.of_linked (h.linked.dropOp hd hfree) (fun o op' ho => ?_) (fun {t x'} hx' => ?_) (by rw [hd.frame])
  · rw [hd.frame]
    exact h.opBound (hd.op?_eq_some.1 ho).2
  · obtain ⟨x, hx, rfl⟩ := hd.lookup hx'
    refine ⟨fun hp => ?_, fun hst => ⟨x, hx, hst⟩⟩
    simp only at hp
    split at hp
    · exact absurd rfl hp
    · exact (h.type_of_producer hx hp : x.type = .actGrad)

theorem makeConst (h : g.WellFormed) {id : TensorId} {value : HostTensor} (hm : g.makeConst id value = .ok g') :
    g'.WellFormed := by
  obtain ⟨x, hx, hnone, -, rfl⟩ := makeConst_ok hm
  refine h.of_linked (h.linked.modifyTensor id (fun _ => rfl) (fun _ => rfl) fun _ => rfl) h.numbered
    (fun {t y} hy => ?_) rfl
  rw [tensor?_modifyTensor] at hy
  split at hy
  · rename_i hid
    subst hid
    rw [hx] at hy
    cases hy
    exact ⟨fun hp => absurd hnone hp, fun hst => by cases hst⟩
  · exact ⟨h.type_of_producer hy, fun hst => ⟨y, hy, hst⟩⟩

theorem modifyOp (h : g.WellFormed) (id : OpId) {f : Op → Op} (hid : ∀ op, (f op).id = op.id)
    (hin : ∀ op, (f op).inputs = op.inputs) (hout : ∀ op, (f op).outputs = op.outputs) :
    (g.modifyOp id f).WellFormed := by
  refine h.of_linked (h.linked.modifyOp id hid hin hout) (fun o op ho => ?_)
    (fun hx => ⟨h.type_of_producer hx, fun hst => ⟨_, hx, hst⟩⟩) rfl
  rw [op?_modifyOp] at ho
  split at ho
  · obtain ⟨op', ho', -⟩ := Option.map_eq_some_iff.1 ho
    exact h.opBound ho'
  · exact h.opBound ho

theorem nextTemp (h : g.WellFormed) (n : Nat) : ({ g with nextTemp := n } : Graph).WellFormed :=
  h.of_linked (h.linked.of_lookups (fun _ => rfl) fun _ => rfl) h.numbered
    (fun hx => ⟨h.type_of_producer hx, fun hst => ⟨_, hx, hst⟩⟩) rfl

/-- Rewiring the consumers of a tensor. -/
theorem rewires (h : g.WellFormed) {old new : TensorId} (hb : Bypassed g old new g') : g'.WellFormed := by
  refine h.of_linked hb.linked (fun o op ho => ?_) (fun {t x'} hx' => ?_) (by rw [hb.frame])
  · obtain ⟨op', ho', -⟩ := hb.op_of ho
    rw [hb.frame]
    exact h.opBound ho'
  · obtain ⟨x, hx, hsame⟩ := hb.lookup hx'
    refine ⟨fun hxp => ?_, fun hst => ⟨x, hx, hsame.type.trans hst⟩⟩
    have htype : x.type = .actGrad := h.type_of_producer hx fun hnone => hxp (hsame.producer.symm.trans hnone)
    exact hsame.type.symm.trans htype

end WellFormed

/-! ## Weights -/

/-- The weight of a graph: that of all its ops. -/
def weight (g : Graph) : Nat := (g.ops.values.map (·.kind.weight)).sum

/-- The weight is at most seven times the number of ops. -/
theorem weight_le (g : Graph) : g.weight ≤ 7 * g.ops.size := by
  have hsize : (g.ops.values.map (·.kind.weight)).length = g.ops.size := by simp [Dict.values, Dict.size]
  have hle := List.sum_le_card_nsmul (g.ops.values.map (·.kind.weight)) 7 fun n hn => by
    obtain ⟨op, -, rfl⟩ := List.mem_map.1 hn
    exact op.kind.weight_le
  rw [hsize, smul_eq_mul, Nat.mul_comm] at hle
  exact hle

/-- There are no more ops than the weight. -/
theorem size_le_weight (g : Graph) : g.ops.size ≤ g.weight := by
  have hsize : (g.ops.values.map (·.kind.weight)).length = g.ops.size := by simp [Dict.values, Dict.size]
  have hle := List.card_nsmul_le_sum (g.ops.values.map (·.kind.weight)) 1 fun n hn => by
    obtain ⟨op, -, rfl⟩ := List.mem_map.1 hn
    exact op.kind.weight_pos
  rw [hsize, smul_eq_mul, Nat.mul_one] at hle
  exact hle

/-- The weight depends on the kinds of the ops alone. -/
theorem weight_congr (h : ∀ o, (g'.op? o).map (·.kind) = (g.op? o).map (·.kind)) : g'.weight = g.weight := by
  have hkinds : g'.ops.map (fun _ op => op.kind) = g.ops.map fun _ op => op.kind :=
    Dict.ext_get? fun o => by rw [Dict.get?_map, Dict.get?_map]; exact h o
  have hweight : ∀ g : Graph, g.weight = ((g.ops.map fun _ op => op.kind).values.map OpKind.weight).sum := by
    intro g
    simp only [weight, Dict.values, Dict.map, List.map_map]
    rfl
  rw [hweight, hweight, hkinds]

/-- One op more. -/
theorem weight_of_added (hnone : g.op? o = none) (h : ∀ o', g'.op? o' = if o' = o then some op else g.op? o') :
    g'.weight = g.weight + op.kind.weight := by
  have hops : g'.ops = g.ops.insert o op := Dict.ext_get? fun o' => by
    rw [Dict.get?_insert, eq_comm]
    exact (if_congr eq_comm rfl rfl).trans (h o').symm
  rw [weight, hops, ((Dict.perm_values_insert hnone).map _).sum_eq, List.map_cons, List.sum_cons, Nat.add_comm]
  rfl

theorem weight_of_dropped {id : OpId} {erased : Bool} (hd : DroppedOp g id op erased g') :
    g.weight = g'.weight + op.kind.weight := by
  refine weight_of_added (o := id) (by rw [hd.op?_eq, if_pos rfl]) fun o' => ?_
  split
  · rename_i ho
    rw [ho, hd.found]
  · rename_i ho
    rw [hd.op?_eq, if_neg ho]

end Graph

/-! ## Calls on an editor -/

variable {r r₁ r' : Editor} {op : Op} {kind : OpKind} {inputs : List TensorId} {output : TensorId} {k : BuiltIn}
  {p : Pattern} {backend : Option Backend}

namespace Editor

theorem detach_weight (h : r.graph.WellFormed) (ho : r.graph.op? op.id = some op)
    (hrun : (detach op).run r = (.ok (), r')) :
    r'.graph.WellFormed ∧ r.graph.weight = r'.graph.weight + op.kind.weight := by
  obtain ⟨removed, hdetach⟩ := run_detach_ok hrun
  have hd := detachOp_ok hdetach
  cases hd.found.symm.trans ho
  exact ⟨h.dropOp hd nofun, weight_of_dropped hd⟩

/-- What an insertion does to the graph: an op is added, and then told where it belongs. -/
theorem insertAs_ok (hrun : (insertAs op kind inputs output).run r = (.ok (), r')) : ∃ g₁ info,
    AddedOp r.graph kind inputs output op.phase info g₁ ∧ r'.graph = g₁.modifyOp r.graph.nextOp fun new =>
      { new with virtualGraph := op.virtualGraph, forwardOp := op.forwardOp, excluded := op.excluded } := by
  obtain ⟨id, r₁, hadd, h⟩ := Stateful.run_bind_ok.1 hrun
  obtain ⟨_, r₂, hmodify, h⟩ := Stateful.run_bind_ok.1 h
  cases hmodify
  cases h
  obtain ⟨output', info, hout, rfl, ha⟩ := addOp_ok (Stateful.run_change_ok.1 (run_onGraph_ok hadd))
  cases hout
  refine ⟨r₁.graph, info, ha, ?_⟩
  rw [bumpUsers_graph, foldl_graph fun r i => bumpProducer_graph i]

theorem insertAs_weight (h : r.graph.WellFormed) (hrun : (insertAs op kind inputs output).run r = (.ok (), r')) :
    r'.graph.WellFormed ∧ r'.graph.weight = r.graph.weight + kind.weight := by
  obtain ⟨g₁, info, ha, hg⟩ := insertAs_ok hrun
  rw [hg]
  refine ⟨(h.addOp ha).modifyOp _ (fun _ => rfl) (fun _ => rfl) fun _ => rfl, (weight_congr fun o => ?_).trans
    (weight_of_added h.numbered.unused ha.op?_eq)⟩
  rw [op?_modifyOp]
  split
  · rw [Option.map_map]
    rfl
  · rfl

theorem Inserts.weight {kinds : List OpKind} (hi : Inserts op kinds r r') (h : r.graph.WellFormed) :
    r'.graph.WellFormed ∧ r'.graph.weight = r.graph.weight + (kinds.map OpKind.weight).sum := by
  induction hi with
  | done => exact ⟨h, rfl⟩
  | @add kind kinds inputs output n r r₁ r' hfirst hrest ih =>
    obtain ⟨h₁, hweight⟩ := insertAs_weight (h.nextTemp n) hfirst
    obtain ⟨h', hweight'⟩ := ih h₁
    refine ⟨h', ?_⟩
    rw [hweight', hweight, List.map_cons, List.sum_cons, Nat.add_assoc]
    rfl

theorem makeConsts_weight {outputs : List (TensorId × HostTensor)} (h : r.graph.WellFormed)
    (hrun : (outputs.forM fun (output, value) => onGraph (Stateful.change fun g => do
      return ((), ← g.makeConst output value))).run r = (.ok (), r')) :
    r'.graph.WellFormed ∧ r'.graph.weight = r.graph.weight := by
  refine Stateful.run_forM_keeps (fun cur : Editor => cur.graph.WellFormed ∧ cur.graph.weight = r.graph.weight)
    (fun e _ {s s'} hs hstep => ?_) ⟨h, rfl⟩ hrun
  obtain ⟨g₁, hmake, hpure⟩ := Outcome.bind_eq_ok.1 (Stateful.run_change_ok.1 (run_onGraph_ok hstep))
  cases hpure
  refine ⟨hs.1.makeConst hmake, (weight_congr fun o => ?_).trans hs.2⟩
  obtain ⟨x, -, -, -, hg⟩ := makeConst_ok hmake
  rw [hg, op?_modifyTensor]

/-- What replacing all uses does to the graph. -/
theorem replaceAllUses_ok (hl : r.graph.Linked) {old new : TensorId}
    (hrun : (replaceAllUses old new).run r = (.ok (), r')) : Bypassed r.graph old new r'.graph := by
  have hcall := run_replaceAllUses_ok hrun
  cases hnew : r.graph.tensor? new with
  | none =>
    rw [replaceAllUses_none hnew] at hcall
    cases hcall
  | some x =>
    obtain ⟨g', hrun', hb⟩ := hl.replaceAllUses old ⟨x, hnew⟩
    cases hrun'.symm.trans hcall
    exact hb

end Editor

namespace Pattern

/-- Every action leaves a well-formed graph of less weight. -/
theorem Acts.weight_lt (ha : Acts op r r') (h : r.graph.WellFormed) (ho : r.graph.op? op.id = some op) :
    r'.graph.WellFormed ∧ r'.graph.weight < r.graph.weight := by
  cases ha with
  | replaces hdetach hinserts hlt =>
    obtain ⟨h₁, hdropped⟩ := Editor.detach_weight h ho hdetach
    obtain ⟨h', hinserted⟩ := hinserts.weight h₁
    refine ⟨h', ?_⟩
    rw [hinserted, hdropped]
    exact Nat.add_lt_add_left hlt _
  | folds hdetach hmake =>
    obtain ⟨h₁, hdropped⟩ := Editor.detach_weight h ho hdetach
    obtain ⟨h', hmade⟩ := Editor.makeConsts_weight h₁ hmake
    refine ⟨h', ?_⟩
    rw [hmade, hdropped]
    exact Nat.lt_add_of_pos_right op.kind.weight_pos
  | @drops input output r₁ huses herase =>
    have hb := Editor.replaceAllUses_ok h.linked huses
    have h₁ : r₁.graph.WellFormed := h.rewires hb
    have hsame : r₁.graph.weight = r.graph.weight := weight_congr fun o => by
      rw [hb.op?_eq, Option.map_map]
      rfl
    obtain ⟨removed, hcall⟩ := Editor.run_erase_ok herase
    obtain ⟨hd, hfree⟩ := eraseOp_ok hcall
    refine ⟨h₁.dropOp hd fun _ => consumedOutput?_eq_none.1 hfree, ?_⟩
    rw [← hsame, weight_of_dropped hd]
    exact Nat.lt_add_of_pos_right removed.kind.weight_pos

end Pattern

/-- Every success of a built-in pattern leaves a well-formed graph of less weight. -/
theorem BuiltIn.weight_lt (hp : k.pattern? backend = some p) (h : r.graph.WellFormed)
    (ho : r.graph.op? op.id = some op) (happ : p.applies op = true)
    (hrun : (p.attempt op).run r = (.ok true, r')) : r'.graph.WellFormed ∧ r'.graph.weight < r.graph.weight :=
  (BuiltIn.acts hp happ hrun).weight_lt h ho

end TensorGraph
