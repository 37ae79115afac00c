import TensorGraph.Placement.Basic
import TensorGraph.Proofs.Graph.WellFormed
import TensorGraph.Proofs.Placement.Stages

/-!
Placing ops changes where they are placed and nothing else: the tables of the graph, the feeds between ops and their
costs stay. A run of a placement is put down to its parts once, and the costs that it reports are those of the ops on
each virtual graph.
-/
namespace TensorGraph

/-- An op without its place. -/
def Op.unplaced (op : Op) : Op := { op with virtualGraph := none }

namespace Graph

variable {g g' g'' : Graph} {o p q : OpId} {t : TensorId}

/-- A graph whose ops may stand elsewhere. -/
structure Moved (g g' : Graph) : Prop where
  ops : ∀ o, (g'.op? o).map Op.unplaced = (g.op? o).map Op.unplaced
  tensors : g'.tensors = g.tensors

namespace Moved

theorem refl (g : Graph) : Moved g g := ⟨fun _ => rfl, rfl⟩

theorem symm (h : Moved g g') : Moved g' g := ⟨fun o => (h.ops o).symm, h.tensors.symm⟩

theorem trans (h : Moved g g') (h' : Moved g' g'') : Moved g g'' :=
  ⟨fun o => (h'.ops o).trans (h.ops o), h'.tensors.trans h.tensors⟩

theorem place (g : Graph) (id : OpId) (v : Int) : Moved g (Placement.place g id v) := by
  refine ⟨fun o => ?_, rfl⟩
  rw [Placement.place, op?_modifyOp]
  split
  · cases g.op? o <;> rfl
  · rfl

/-- The same op in the other graph, up to its place. -/
theorem op (h : Moved g g') {op' : Op} (ho : g'.op? o = some op') :
    ∃ op, g.op? o = some op ∧ op' = { op with virtualGraph := op'.virtualGraph } := by
  have heq := h.ops o
  rw [ho, Option.map_some] at heq
  obtain ⟨op, hop, hun⟩ := Option.map_eq_some_iff.1 heq.symm
  refine ⟨op, hop, ?_⟩
  cases op
  cases op'
  simp only [Op.unplaced, Op.mk.injEq] at hun ⊢
  tauto

theorem tensor?_eq (h : Moved g g') (t : TensorId) : g'.tensor? t = g.tensor? t := by
  rw [tensor?, tensor?, h.tensors]

theorem producer?_eq (h : Moved g g') (t : TensorId) : g'.producer? t = g.producer? t := by
  rw [producer?, producer?, h.tensor?_eq]

theorem info?_eq (h : Moved g g') : g'.info? = g.info? := by
  funext t
  rw [info?, info?, h.tensor?_eq]

theorem feeds (h : Moved g g') (hf : g'.Feeds p q) : g.Feeds p q := by
  obtain ⟨op', hq, t, ht, hp⟩ := hf
  obtain ⟨op, hop, heq⟩ := h.op hq
  rw [heq] at ht
  exact ⟨op, hop, t, ht, by rw [← h.producer?_eq, hp]⟩

theorem order_eq (h : Moved g g') : g'.order = g.order := by
  refine order_congr (fun o => ?_) h.tensors
  have hop := congrArg (Option.map fun op : Op => (op.id, op.inputs, op.outputs)) (h.ops o)
  rwa [Option.map_map, Option.map_map] at hop

theorem cost_eq (h : Moved g g') (op : Op) (training : Bool) (v : Option Int) :
    g'.cost { op with virtualGraph := v } training = g.cost op training := by
  simp only [cost, h.info?_eq]

theorem exists_op_iff (h : Moved g g') {P : Op → Prop} (hP : ∀ op v, P { op with virtualGraph := v } ↔ P op) :
    (∃ op, g.op? o = some op ∧ P op) ↔ ∃ op, g'.op? o = some op ∧ P op := by
  have hone : ∀ {a b : Graph}, Moved a b → (∃ op, b.op? o = some op ∧ P op) → ∃ op, a.op? o = some op ∧ P op := by
    rintro a b hab ⟨op', ho', hop'⟩
    obtain ⟨op, ho, heq⟩ := hab.op ho'
    exact ⟨op, ho, (hP op _).1 (heq ▸ hop')⟩
  exact ⟨hone h.symm, hone h⟩

theorem linked (h : Moved g g') (hl : g.Linked) : g'.Linked := by
  refine ⟨fun {o op'} ho => ?_, fun {t x} hx => ?_, fun {o t} => ?_, fun {o t} => ?_⟩
  · obtain ⟨op, hop, heq⟩ := h.op ho
    rw [heq]
    exact (hl.opId hop : op.id = o)
  · exact hl.tensorId (h.tensor?_eq t ▸ hx)
  · rw [consumers, h.tensor?_eq]
    exact hl.reads.trans (h.exists_op_iff fun _ _ => Iff.rfl)
  · rw [h.producer?_eq]
    exact hl.makes.trans (h.exists_op_iff fun _ _ => Iff.rfl)

theorem values_eq (h : Moved g g') : g'.ops.values.map Op.unplaced = g.ops.values.map Op.unplaced := by
  have hdict : (g'.ops.map fun _ => Op.unplaced) = g.ops.map fun _ => Op.unplaced := by
    refine Dict.ext_get? fun o => ?_
    rw [Dict.get?_map, Dict.get?_map]
    exact h.ops o
  have hvalues := congrArg Dict.values hdict
  simpa [Dict.values, Dict.map, List.map_map, Function.comp_def] using hvalues

end Moved

/-- A graph whose ops may stand elsewhere, and that is the same otherwise. -/
structure Relocated (g g' : Graph) : Prop where
  moved : Moved g g'
  frame : g' = { g with ops := g'.ops }

namespace Relocated

theorem refl (g : Graph) : Relocated g g := ⟨.refl g, rfl⟩

theorem symm (h : Relocated g g') : Relocated g' g := ⟨h.moved.symm, by rw [h.frame]⟩

theorem trans (h : Relocated g g') (h' : Relocated g' g'') : Relocated g g'' := by
  refine ⟨h.moved.trans h'.moved, ?_⟩
  rw [h'.frame, h.frame]

theorem place (g : Graph) (id : OpId) (v : Int) : Relocated g (Placement.place g id v) := ⟨.place g id v, rfl⟩

end Relocated

/-- The cost of all ops, if it fits. -/
def totalCost (g : Graph) (training : Bool) : Outcome Nat := do
  Word.sum (← g.ops.values.mapM fun op => g.cost op training)

end Graph

namespace Placement

variable {g : Graph} {o : OpId} {n : Nat} {training : Bool}

/-! ## Costs -/

/-- The cost of an op; zero where it has none. -/
def weight (g : Graph) (training : Bool) (op : Op) : Nat :=
  match g.cost op training with
  | .ok c => c
  | .error _ => 0

/-- All costs are there, and their total fits. -/
theorem totalCost_eq_ok {total : Nat} (h : g.totalCost training = .ok total) :
    (∀ op ∈ g.ops.values, g.cost op training = .ok (weight g training op)) ∧
      total = (g.ops.values.map (weight g training)).sum ∧ total < Word.limit := by
  obtain ⟨cs, hcs, hsum⟩ := Outcome.bind_eq_ok.1 h
  obtain ⟨hlt, rfl⟩ := Word.nat_eq_ok_iff.1 hsum
  have hcost : ∀ op ∈ g.ops.values, g.cost op training = .ok (weight g training op) := by
    intro op hop
    obtain ⟨c, -, hc⟩ := exists_of_forall₂ (Outcome.mapM_eq_ok.1 hcs) op hop
    rw [weight, hc]
  rw [Outcome.mapM_of_forall hcost] at hcs
  cases hcs
  exact ⟨hcost, rfl, hlt⟩

theorem sum_sublist_le {α : Type} (w : α → Nat) {l m : List α} (h : l.Sublist m) : (l.map w).sum ≤ (m.map w).sum :=
  (h.map w).sum_le_sum fun _ _ => Nat.zero_le _

/-- The ops on a virtual graph. -/
def opsOn (g : Graph) (v : Nat) : List Op := g.ops.values.filter (·.virtualGraph = some (Int.ofNat v))

theorem costs_ok {total : Nat} (h : g.totalCost training = .ok total) :
    costs g n training = .ok ((List.range n).map fun v => ((opsOn g v).map (weight g training)).sum) := by
  obtain ⟨hcost, rfl, hlt⟩ := totalCost_eq_ok h
  refine Outcome.mapM_of_forall fun v _ => ?_
  have hon : ∀ op ∈ opsOn g v, g.cost op training = .ok (weight g training op) := fun op hop =>
    hcost op (List.mem_filter.1 hop).1
  refine Outcome.bind_eq_ok.2 ⟨_, Outcome.mapM_of_forall hon, Word.nat_eq_ok_iff.2 ⟨?_, rfl⟩⟩
  exact lt_of_le_of_lt (sum_sublist_le _ List.filter_sublist) hlt

theorem totalCost_moved {g' : Graph} (h : Graph.Moved g g') : g'.totalCost training = g.totalCost training := by
  have hun : ∀ a : Graph, a.ops.values.mapM (fun op => a.cost op training) =
      (a.ops.values.map Op.unplaced).mapM fun op => a.cost op training := by
    intro a
    rw [List.mapM_map]
    rfl
  have hcost : (fun op => g'.cost op training) = fun op => g.cost op training := funext fun op => h.cost_eq op training op.virtualGraph
  rw [Graph.totalCost, Graph.totalCost, hun, hun, h.values_eq, hcost]

/-! ## Places -/

theorem relocated_foldl : ∀ (l : List (OpId × Int)) (g : Graph),
    Graph.Relocated g (l.foldl (fun g (id, v) => place g id v) g)
  | [], g => .refl g
  | (id, v) :: l, g => (Graph.Relocated.place g id v).trans (relocated_foldl l _)

theorem moved_foldl (l : List (OpId × Int)) (g : Graph) : Graph.Moved g (l.foldl (fun g (id, v) => place g id v) g) :=
  (relocated_foldl l g).moved

/-- Places given to ops that are all different. -/
theorem op?_foldl_place (o : OpId) : ∀ {l : List (OpId × Int)} {g : Graph}, (l.map (·.1)).Nodup →
    (∀ v, (o, v) ∈ l → (l.foldl (fun g (id, v) => place g id v) g).op? o =
      (g.op? o).map fun op => { op with virtualGraph := some v }) ∧
    (o ∉ l.map (·.1) → (l.foldl (fun g (id, v) => place g id v) g).op? o = g.op? o)
  | [], g, _ => by simp
  | (id, w) :: l, g, h => by
    rw [List.map_cons, List.nodup_cons] at h
    obtain ⟨hin, hout⟩ := op?_foldl_place o (g := place g id w) h.2
    have hplace : (place g id w).op? o = if id = o then (g.op? o).map fun op => { op with virtualGraph := some w }
        else g.op? o := Graph.op?_modifyOp ..
    rw [List.foldl_cons]
    constructor
    · intro v hv
      rcases List.mem_cons.1 hv with heq | hv
      · cases heq
        rw [hout h.1, hplace, if_pos rfl]
      · have hne : ¬ id = o := by
          rintro rfl
          exact h.1 (List.mem_map.2 ⟨(id, v), hv, rfl⟩)
        rw [hin v hv, hplace, if_neg hne]
    · intro ho
      simp only [List.map_cons, List.mem_cons, not_or] at ho
      rw [hout ho.2, hplace, if_neg fun e => ho.1 e.symm]

/-- One of the ops that follow. -/
def follow (g : Graph) (id : OpId) : Graph :=
  match g.op? id with
  | some op => if op.phase = .forward then g else place g id (following g op)
  | none => g

theorem follow_cases (g : Graph) (id : OpId) :
    follow g id = g ∧ (∀ op, g.op? id = some op → op.phase = .forward) ∨
      ∃ op, g.op? id = some op ∧ op.phase ≠ .forward ∧ follow g id = place g id (following g op) := by
  unfold follow
  cases hop : g.op? id with
  | none => exact .inl ⟨rfl, fun _ h => absurd h (by simp)⟩
  | some op =>
    by_cases hphase : op.phase = .forward
    · refine .inl ⟨if_pos hphase, fun op' h => ?_⟩
      cases h
      exact hphase
    · exact .inr ⟨op, rfl, hphase, if_neg hphase⟩

theorem relocated_follow (g : Graph) (id : OpId) : Graph.Relocated g (follow g id) := by
  rcases follow_cases g id with ⟨h, -⟩ | ⟨op, -, -, h⟩
  · rw [h]
    exact .refl g
  · rw [h]
    exact .place g id _

theorem moved_follow (g : Graph) (id : OpId) : Graph.Moved g (follow g id) := (relocated_follow g id).moved

theorem relocated_placeFollowers : ∀ (order : List OpId) (g : Graph), Graph.Relocated g (placeFollowers g order)
  | [], g => .refl g
  | id :: order, g => (relocated_follow g id).trans (relocated_placeFollowers order _)

/-- Forward ops stay where they are. -/
theorem op?_placeFollowers {op : Op} (hphase : op.phase = .forward) : ∀ (order : List OpId) {g : Graph},
    g.op? o = some op → (placeFollowers g order).op? o = some op
  | [], g, ho => ho
  | id :: order, g, ho => by
    have hfirst : (follow g id).op? o = some op := by
      rcases follow_cases g id with ⟨h, -⟩ | ⟨op', hop', hne, h⟩
      · rw [h]
        exact ho
      · have hid : ¬ id = o := by
          rintro rfl
          rw [ho] at hop'
          cases hop'
          exact hne hphase
        rw [h, place, Graph.op?_modifyOp, if_neg hid]
        exact ho
    exact op?_placeFollowers hphase order hfirst

theorem relocated_placeAll (g : Graph) (order : List Op) (placed : List (OpId × Int)) :
    Graph.Relocated g (placeAll g order placed) := (relocated_foldl placed g).trans (relocated_placeFollowers _ _)

theorem moved_placeAll (g : Graph) (order : List Op) (placed : List (OpId × Int)) :
    Graph.Moved g (placeAll g order placed) := (relocated_placeAll g order placed).moved

/-! ## Runs -/

variable {balance : Balance} {mode : Mode} {b b' : Build}

/-- A run that succeeds, part by part. -/
theorem runBy_eq_ok {summary : Summary} : (runBy balance mode n training).run b = (.ok summary, b') ↔
    ∃ order placed, b.graph.orderedOps = .ok order ∧
      forwardPlaces balance mode b.graph order n training = .ok (placed, summary.stages) ∧
      check mode (placeAll b.graph order placed) n = .ok () ∧
      costs (placeAll b.graph order placed) n training = .ok summary.costs ∧ summary.virtualGraphs = n ∧
      b' = { graph := placeAll b.graph order placed, log := b.log ++ [.placed summary.stages n] } := by
  unfold runBy
  constructor
  · intro h
    obtain ⟨b₀, b₁, h0, h⟩ := Stateful.run_bind_ok.1 h
    cases h0
    obtain ⟨order, b₂, h1, h⟩ := Stateful.run_bind_ok.1 h
    obtain ⟨horder, rfl⟩ := Prod.mk.inj h1
    obtain ⟨⟨placed, stages⟩, b₃, h2, h⟩ := Stateful.run_bind_ok.1 h
    obtain ⟨hplaced, rfl⟩ := Prod.mk.inj h2
    obtain ⟨_, b₄, h3, h⟩ := Stateful.run_bind_ok.1 h
    cases h3
    obtain ⟨_, b₅, h4, h⟩ := Stateful.run_bind_ok.1 h
    obtain ⟨hcheck, rfl⟩ := Prod.mk.inj h4
    obtain ⟨cs, b₆, h5, h⟩ := Stateful.run_bind_ok.1 h
    obtain ⟨hcosts, rfl⟩ := Prod.mk.inj h5
    cases h
    exact ⟨order, placed, horder, hplaced, hcheck, hcosts, rfl, rfl⟩
  · rintro ⟨order, placed, horder, hplaced, hcheck, hcosts, hn, rfl⟩
    cases summary
    cases hn
    simp only [Stateful.run_bind, Stateful.run_get, Stateful.run_lift, Stateful.run_modify, Stateful.run_pure,
      BuildM.report, horder, hplaced, hcheck, hcosts]

/-- A run whose forward ops have no place changes nothing. -/
theorem runBy_of_error {order : List Op} {e : Failure} (horder : b.graph.orderedOps = .ok order)
    (h : forwardPlaces balance mode b.graph order n training = .error e) :
    (runBy balance mode n training).run b = (.error e, b) := by
  simp only [runBy, Stateful.run_bind, Stateful.run_get, Stateful.run_lift, horder, h]

end Placement

end TensorGraph
