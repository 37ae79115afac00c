import TensorGraph.Proofs.Graph.Cycle

/-!
Orders of graphs that calls with any arguments lead to. Such calls may list an op among the consumers of what it does
not read, or leave a tensor without mention of an op that reads it, but they never lose the numbers of ops or the
producers of tensors. Whatever the tables say, an order lists every op once. Where the consumers of produced tensors are
the ops that read them, the order is right; calls that rewire ops only from what they read to what is there keep it so.
-/
namespace TensorGraph

namespace Graph

variable {g g' : Graph} {o p q : OpId} {t : TensorId}

/-! ## Any graph -/

namespace Pending

/-- What the search keeps whatever the tables say: what has run and what is ready waits for nothing, and nothing is
ready that has run. -/
structure Sparse (g : Graph) (done : List OpId) (s : Pending) : Prop where
  op : ∀ {o n}, s.waiting.get? o = some n → ∃ op, g.op? o = some op
  settled : ∀ o ∈ done, s.waiting.get? o = some 0
  ready : ∀ o ∈ s.ready, o ∉ done ∧ s.waiting.get? o = some 0

variable {s s' : Pending} {done : List OpId}

theorem Holds.sparse (h : Holds g done s) : Sparse g done s := by
  refine ⟨fun {o n} hn => ?_, h.settled, fun o ho => (h.ready o).1 ho⟩
  rw [h.waiting] at hn
  obtain ⟨op, ho, -⟩ := Option.map_eq_some_iff.1 hn
  exact ⟨op, ho⟩

theorem Sparse.settle (h : Sparse g done s) (hs : s.settle o = .ok s') : Sparse g done s' := by
  unfold Pending.settle at hs
  split at hs
  · rename_i n hn
    cases hs
    have hget : ∀ q, (s.waiting.insert o n).get? q = if o = q then some n else s.waiting.get? q := fun q => Dict.get?_insert ..
    have hother : ∀ {q}, s.waiting.get? q = some 0 → o ≠ q := by
      rintro q hq rfl
      rw [hn] at hq
      cases hq
    refine ⟨fun {q m} hq => ?_, fun q hq => ?_, fun q hq => ?_⟩
    · rw [hget] at hq
      split at hq
      · rename_i heq
        exact heq ▸ h.op hn
      · exact h.op hq
    · have hzero := h.settled q hq
      rw [hget, if_neg (hother hzero)]
      exact hzero
    · rw [hget]
      by_cases heq : o = q
      · subst heq
        rw [if_pos rfl]
        have hnot : o ∉ done := fun hd => hother (h.settled o hd) rfl
        by_cases hn0 : n = 0
        · exact ⟨hnot, by rw [hn0]⟩
        · simp only [hn0, if_false] at hq
          exact absurd rfl (hother (h.ready o hq).2)
      · rw [if_neg heq]
        refine h.ready q ?_
        split at hq
        · exact (SortedSet.mem_insert.1 hq).resolve_left fun e => heq e.symm
        · exact hq
  · cases hs
  · cases hs
    exact h

theorem Sparse.take (h : Sparse g done s) (ho : o ∈ s.ready) : Sparse g (o :: done) { s with ready := s.ready.erase o } := by
  refine ⟨h.op, fun q hq => ?_, fun q hq => ?_⟩
  · rcases List.mem_cons.1 hq with rfl | hq
    · exact (h.ready q ho).2
    · exact h.settled q hq
  · obtain ⟨hq, hne⟩ := SortedSet.mem_erase.1 hq
    exact ⟨fun hd => (List.mem_cons.1 hd).elim hne (h.ready q hq).1, (h.ready q hq).2⟩

end Pending

/-- Whatever the tables say, no op is taken twice. -/
theorem orderFrom_distinct : ∀ {fuel : Nat} {s : Pending} {done l : List OpId}, Pending.Sparse g done s →
    g.orderFrom fuel s = .ok l → l.Nodup ∧ ∀ o ∈ l, o ∉ done ∧ ∃ op, g.op? o = some op
  | 0, _, _, _, _, h => by
    cases h
    exact ⟨.nil, fun o ho => absurd ho List.not_mem_nil⟩
  | fuel + 1, s, done, l, hs, h => by
    unfold orderFrom at h
    split at h
    · cases h
      exact ⟨.nil, fun o ho => absurd ho List.not_mem_nil⟩
    · rename_i id rest hready
      have hmem : id ∈ s.ready := by
        rw [← SortedSet.mem_toList, hready]
        exact List.mem_cons_self
      obtain ⟨s', hsettle, h⟩ := Outcome.bind_eq_ok.1 h
      obtain ⟨l', hl', h⟩ := Outcome.bind_eq_ok.1 h
      cases h
      have hs' : Pending.Sparse g (id :: done) s' :=
        Outcome.foldlM_keeps (Pending.Sparse g (id :: done)) (fun _ _ _ _ hs h => hs.settle h) (hs.take hmem) hsettle
      obtain ⟨hnodup, hrest⟩ := orderFrom_distinct hs' hl'
      refine ⟨List.nodup_cons.2 ⟨fun hid => (hrest id hid).1 List.mem_cons_self, hnodup⟩, fun o ho => ?_⟩
      rcases List.mem_cons.1 ho with rfl | ho
      · exact ⟨(hs.ready o hmem).1, hs.op (hs.ready o hmem).2⟩
      · exact ⟨fun hd => (hrest o ho).1 (List.mem_cons_of_mem _ hd), (hrest o ho).2⟩

/-- Whatever the tables say, an order lists every op once. -/
theorem order_distinct {l : List OpId} (h : g.order = .ok l) : l.Nodup ∧ ∀ o, o ∈ l ↔ ∃ op, g.op? o = some op := by
  unfold order at h
  obtain ⟨ids, hids, h⟩ := Outcome.bind_eq_ok.1 h
  split at h
  · cases h
  · rename_i hlen
    cases h
    obtain ⟨hnodup, hop⟩ := orderFrom_distinct (Pending.holds_start g).sparse hids
    have hop : ∀ o ∈ l, ∃ op, g.op? o = some op := fun o ho => (hop o ho).2
    exact ⟨hnodup, fun o => ⟨hop o, fun ⟨_, ho⟩ => mem_of_length hnodup hop (not_not.1 hlen) ho⟩⟩

/-! ## Calls with any arguments -/

/-- What every call keeps, whatever it is asked for: ops stand under their own numbers, which are below the next one,
and the producer of a tensor is the op that names it as its result. -/
structure Attributed (g : Graph) : Prop where
  opId : ∀ {o op}, g.op? o = some op → op.id = o
  opBound : ∀ {o op}, g.op? o = some op → o < g.nextOp
  makes : ∀ {o t}, g.producer? t = some o ↔ ∃ op, g.op? o = some op ∧ t ∈ op.outputs

namespace Attributed

theorem empty : Graph.empty.Attributed := ⟨Linked.empty.opId, Sound.empty.opBound, Linked.empty.makes⟩

/-- Nobody makes what has no producer. -/
theorem not_mem_outputs (h : g.Attributed) (ht : g.producer? t = none) {op : Op} (ho : g.op? o = some op) : t ∉ op.outputs := by
  intro hout
  rw [h.makes.2 ⟨op, ho, hout⟩] at ht
  cases ht

theorem exists_mem_outputs {x : Option Op} :
    (∃ op, x = some op ∧ t ∈ op.outputs) ↔ ∃ l ∈ x.map fun op => (op.id, op.outputs), t ∈ l.2 := by
  cases x <;> simp

/-- A change that touches neither the producers of tensors nor what ops say of their numbers and results. -/
theorem of_outputs (h : g.Attributed) (hn : g'.nextOp = g.nextOp) (hp : ∀ t, g'.producer? t = g.producer? t)
    (hop : ∀ o, (g'.op? o).map (fun op => (op.id, op.outputs)) = (g.op? o).map fun op => (op.id, op.outputs)) :
    g'.Attributed := by
  have hlabel : ∀ {o op'}, g'.op? o = some op' → ∃ op, g.op? o = some op ∧ op.id = op'.id := by
    intro o op' ho'
    have hsame := hop o
    rw [ho', Option.map_some] at hsame
    obtain ⟨op, ho, heq⟩ := Option.map_eq_some_iff.1 hsame.symm
    exact ⟨op, ho, congrArg Prod.fst heq⟩
  refine ⟨fun ho' => ?_, fun ho' => ?_, fun {o t} => ?_⟩
  · obtain ⟨op, ho, hid⟩ := hlabel ho'
    exact hid.symm.trans (h.opId ho)
  · obtain ⟨op, ho, -⟩ := hlabel ho'
    exact hn ▸ h.opBound ho
  · rw [hp, h.makes, exists_mem_outputs, ← hop, ← exists_mem_outputs]

/-- A change of tensors after which the same ops produce them. -/
theorem of_producers (h : g.Attributed) (hn : g'.nextOp = g.nextOp) (hop : ∀ o, g'.op? o = g.op? o)
    (hp : ∀ t, g'.producer? t = g.producer? t) : g'.Attributed := h.of_outputs hn hp fun o => by rw [hop]

theorem addTensor (h : g.Attributed) {id : TensorId} {info : TensorInfo} {type : TensorType} {data : Option HostTensor}
    (hadd : g.addTensor id info type data = .ok g') : g'.Attributed := by
  have huses := addTensor_uses hadd
  obtain ⟨-, rfl⟩ := addTensor_ok hadd
  exact h.of_producers rfl (fun _ => rfl) fun t => (huses t).1

theorem addOp (h : g.Attributed) {kind : OpKind} {inputs : List TensorId} {output : TensorId} {phase : Phase}
    {info : TensorInfo} (ha : AddedOp g kind inputs output phase info g') : g'.Attributed := by
  have hnew : g.op? g.nextOp = none := by
    refine Option.eq_none_iff_forall_ne_some.2 fun op ho => ?_
    exact Nat.lt_irrefl _ (h.opBound ho)
  refine ⟨fun {o op} ho => ?_, fun {o op} ho => ?_, ha.makes hnew h.makes⟩
  · rw [ha.op?_eq] at ho
    split at ho
    · rename_i heq
      cases ho
      exact heq.symm
    · exact h.opId ho
  · rw [ha.nextOp_eq]
    rw [ha.op?_eq] at ho
    split at ho
    · rename_i heq
      exact heq ▸ Nat.lt_succ_self _
    · exact Nat.lt_succ_of_lt (h.opBound ho)

theorem dropOp (h : g.Attributed) {id : OpId} {op : Op} {erased : Bool} (hd : DroppedOp g id op erased g') :
    g'.Attributed := by
  have hn : g'.nextOp = g.nextOp := by rw [hd.frame]
  exact ⟨fun ho => h.opId (hd.op?_eq_some.1 ho).2, fun ho => hn ▸ h.opBound (hd.op?_eq_some.1 ho).2, hd.makes h.makes⟩

theorem removeTensor (h : g.Attributed) {id : TensorId} {x : Tensor} (hr : g.removeTensor id = .ok (x, g')) :
    g'.Attributed := by
  have huses := removeTensor_uses hr
  obtain ⟨-, -, -, rfl⟩ := removeTensor_ok hr
  exact h.of_producers rfl (fun _ => rfl) fun t => (huses t).1

theorem replaceInput (h : g.Attributed) {op : OpId} {old new : TensorId} (hr : g.replaceInput op old new = .ok g') :
    g'.Attributed := by
  cases ho : g.op? op with
  | none =>
    unfold Graph.replaceInput at hr
    rw [ho] at hr
    cases hr
  | some x =>
    obtain ⟨g'', hrun, hw, -⟩ := replaceInput_ok ho old new
    cases hrun.symm.trans hr
    refine h.of_outputs (by rw [hw.frame]) (fun t => producer?_congr (hw.bare_eq t)) fun o => ?_
    rw [hw.op?_eq, Option.map_map]
    cases g.op? o with
    | none => rfl
    | some y => by_cases hy : o ∈ [op] <;> simp [hy, rewire]

theorem replaceAllUses (old new : TensorId) : Stateful.Keeps Attributed (Graph.replaceAllUses old new) := by
  refine .get_bind fun g _ => ?_
  split
  · refine .forM fun op _ => .change fun {g a g'} h hr => ?_
    obtain ⟨g₁, hr, heq⟩ := Outcome.bind_eq_ok.1 hr
    cases heq
    exact h.replaceInput hr
  · exact .fail _

/-- What a tensor that gets another name does to the ops and producers: the op that produces it names it so. -/
theorem outputs_renameTensor {old new : TensorId} (hr : g.renameTensor old new = .ok g') :
    g.tensor? new = none ∧ g'.nextOp = g.nextOp ∧
      (∀ t, g'.producer? t = if t = new then g.producer? old else if t = old then none else g.producer? t) ∧
      ∀ o, (g'.op? o).map (fun op => (op.id, op.outputs)) = (g.op? o).map fun op =>
        (op.id, if g.producer? old = some o then substitute old new op.outputs else op.outputs) := by
  unfold Graph.renameTensor at hr
  split at hr
  · cases hr
  · rename_i hnew
    rw [Bool.not_eq_true, hasTensor_eq_false_iff] at hnew
    split at hr
    · cases hr
    · rename_i x hx
      have hold : g.producer? old = x.producer := by rw [producer?, hx, Option.bind_some]
      simp only [Except.ok.injEq] at hr
      subst hr
      refine ⟨hnew, ?_, fun t => ?_, fun o => ?_⟩
      · rw [foldl_modifyOp]
        cases x.producer <;> rfl
      · rw [hold]
        simp only [producer?, tensor?, Dict.get?_insert, Dict.get?_erase, eq_comm (a := new), eq_comm (a := old)]
        split
        · rfl
        · split <;> rfl
      · have hread := Dict.get?_foldl_modify (f := fun op : Op => { op with inputs := substitute old new op.inputs })
          (fun op => by rw [substitute_substitute (by rintro rfl; rw [hx] at hnew; cases hnew)]) o x.consumers.toList
        simp only [foldl_modifyOp, op?, hread]
        have hsame : ∀ ops : Dict OpId Op, (if o ∈ x.consumers.toList
            then (ops.get? o).map fun op => { op with inputs := substitute old new op.inputs }
            else ops.get? o).map (fun op => (op.id, op.outputs)) = (ops.get? o).map fun op => (op.id, op.outputs) := by
          intro ops
          cases ops.get? o <;> split <;> rfl
        rw [hsame, hold]
        cases hp : x.producer with
        | none => simp
        | some p =>
          simp only [modifyOp, Dict.get?_modify]
          by_cases hpo : p = o
          · subst hpo
            cases g.ops.get? p <;> simp
          · simp [hpo]

theorem renameTensor (h : g.Attributed) {old new : TensorId} (hr : g.renameTensor old new = .ok g') : g'.Attributed := by
  obtain ⟨hnew, hn, hproducer, hlabels⟩ := outputs_renameTensor hr
  have hop : ∀ o, (g'.op? o).map (fun op => (op.id, op.outputs)) =
      (g.op? o).map fun op => (op.id, substitute old new op.outputs) := by
    intro o
    rw [hlabels]
    cases ho : g.op? o with
    | none => rfl
    | some op =>
      by_cases hout : old ∈ op.outputs
      · rw [h.makes.2 ⟨op, ho, hout⟩]
        simp
      · simp [substitute_of_not_mem hout]
  have hlabel : ∀ {o op'}, g'.op? o = some op' → ∃ op, g.op? o = some op ∧ op.id = op'.id := by
    intro o op' ho'
    have hsame := hop o
    rw [ho', Option.map_some] at hsame
    obtain ⟨op, ho, heq⟩ := Option.map_eq_some_iff.1 hsame.symm
    exact ⟨op, ho, congrArg Prod.fst heq⟩
  refine ⟨fun ho' => ?_, fun ho' => ?_, fun {o t} => ?_⟩
  · obtain ⟨op, ho, hid⟩ := hlabel ho'
    exact hid.symm.trans (h.opId ho)
  · obtain ⟨op, ho, -⟩ := hlabel ho'
    exact hn ▸ h.opBound ho
  · have hmade : (∃ op', g'.op? o = some op' ∧ t ∈ op'.outputs) ↔
        ∃ op, g.op? o = some op ∧ t ∈ substitute old new op.outputs := by
      rw [exists_mem_outputs, hop]
      exact Option.exists_mem_map
    have hnone : g.producer? new = none := by rw [producer?, hnew, Option.bind_none]
    rw [hmade, exists_mem_substitute (h.not_mem_outputs hnone), hproducer]
    split
    · exact h.makes
    · split
      · simp_all
      · simp_all [h.makes]

theorem makeConst (h : g.Attributed) {id : TensorId} {value : HostTensor} (hm : g.makeConst id value = .ok g') :
    g'.Attributed := by
  obtain ⟨x, -, -, -, rfl⟩ := makeConst_ok hm
  refine h.of_producers rfl (fun _ => rfl) fun t => ?_
  rw [producer?, tensor?_modifyTensor, producer?]
  cases g.tensor? t with
  | none => split <;> rfl
  | some y => split <;> rfl

/-- What a call keeps, with any arguments. -/
theorem call : ∀ e : Edit, Stateful.Keeps Attributed e.call
  | .addTensor .. => .change fun h hr => by
    obtain ⟨g₁, hr, heq⟩ := Outcome.bind_eq_ok.1 hr
    cases heq
    exact h.addTensor hr
  | .addConst .. => .change fun h hr => by
    obtain ⟨g₁, hr, heq⟩ := Outcome.bind_eq_ok.1 hr
    cases heq
    exact h.addTensor hr
  | .addOp .. => .bind (.change fun h hr => by
      obtain ⟨output, info, -, -, ha⟩ := addOp_ok hr
      exact h.addOp ha) fun _ => .pure _
  | .detachOp _ => .bind (.change fun h hr => h.dropOp (detachOp_ok hr)) fun _ => .pure _
  | .eraseOp _ => .bind (.change fun h hr => h.dropOp (eraseOp_ok hr).1) fun _ => .pure _
  | .removeTensor _ => .bind (.change fun h hr => h.removeTensor hr) fun _ => .pure _
  | .replaceAllUses old new => replaceAllUses old new
  | .replaceInput .. => .change fun h hr => by
    obtain ⟨g₁, hr, heq⟩ := Outcome.bind_eq_ok.1 hr
    cases heq
    exact h.replaceInput hr
  | .renameTensor .. => .change fun h hr => by
    obtain ⟨g₁, hr, heq⟩ := Outcome.bind_eq_ok.1 hr
    cases heq
    exact h.renameTensor hr
  | .makeConst .. => .change fun h hr => by
    obtain ⟨g₁, hr, heq⟩ := Outcome.bind_eq_ok.1 hr
    cases heq
    exact h.makeConst hr
  | .keep _ => .modify fun _ h => h.of_producers rfl (fun _ => rfl) fun _ => rfl
  | .tempId _ => .modify fun _ h => h.of_producers rfl (fun _ => rfl) fun _ => rfl

end Attributed

/-! ## Orders after any calls -/

namespace Edit

/-- The graph that calls lead to from nothing, failed ones among them. -/
def runAll (calls : List Edit) : Graph := calls.foldl (fun g e => (e.call.run g).2) Graph.empty

/-- Each of the calls may be made when it is its turn. -/
def AllAllowed : Graph → List Edit → Prop
  | _, [] => True
  | g, e :: calls => e.Allowed g ∧ AllAllowed (e.call.run g).2 calls

theorem attributed_runAll (calls : List Edit) : (runAll calls).Attributed := by
  have hfrom : ∀ (calls : List Edit) (g : Graph), g.Attributed →
      (calls.foldl (fun g e => (e.call.run g).2) g).Attributed := by
    intro calls
    induction calls with
    | nil => exact fun _ h => h
    | cons e calls ih => exact fun g h => ih _ (Attributed.call e g h)
  exact hfrom calls _ .empty

theorem edited_runAll {calls : List Edit} (h : AllAllowed .empty calls) : Edited Graph.empty (runAll calls) := by
  have hfrom : ∀ (calls : List Edit) (g : Graph), Edited Graph.empty g → AllAllowed g calls →
      Edited Graph.empty (calls.foldl (fun g e => (e.call.run g).2) g) := by
    intro calls
    induction calls with
    | nil => exact fun _ h _ => h
    | cons e calls ih => exact fun g h hall => ih _ (.call e h hall.1) hall.2
  exact hfrom calls _ .start h

end Edit

/-- The consumers of every tensor that an op produces are the ops that read it. -/
def ReadersListed (g : Graph) : Prop :=
  ∀ p o t, g.producer? t = some p → (o ∈ g.consumers t ↔ ∃ op, g.op? o = some op ∧ t ∈ op.inputs)

/-- Whatever calls with whatever arguments led to a graph, an order of it lists every op once. If the readers of
produced tensors are listed as their consumers, which calls never spoil that rewire ops from what they read to what is
there, then there is an order exactly if there is no cycle, and each op stands in it after the ops that feed it; a graph
with a cycle has none. But the search does not always report the cycle: it breaks off exactly if some op reads its own
result and depends on no cycle of several ops. -/
theorem order_after_calls (calls : List Edit) :
    (∀ l, (Edit.runAll calls).order = .ok l → l.Nodup ∧ ∀ o, o ∈ l ↔ ∃ op, (Edit.runAll calls).op? o = some op) ∧
    (Edit.AllAllowed .empty calls → (Edit.runAll calls).ReadersListed) ∧
    ((Edit.runAll calls).ReadersListed →
      ((∃ l, (Edit.runAll calls).order = .ok l) ↔ (Edit.runAll calls).Acyclic) ∧
      (∀ l, (Edit.runAll calls).order = .ok l → ∀ pre o post, l = pre ++ o :: post →
        ∀ p, (Edit.runAll calls).Feeds p o → p ∈ pre) ∧
      (¬ (Edit.runAll calls).Acyclic →
        (Edit.runAll calls).order = .graph .cycle ∨ (Edit.runAll calls).order = .error .abort) ∧
      ((Edit.runAll calls).order = .error .abort ↔
        ∃ o, (Edit.runAll calls).Feeds o o ∧ (Edit.runAll calls).Clear o)) := by
  refine ⟨fun l hl => order_distinct hl, fun hall p o t _ => ?_, fun hlisted => ?_⟩
  · exact ((Edit.edited_runAll hall).sound .empty).linked.reads
  · have hattributed := Edit.attributed_runAll calls
    have haccounted : (Edit.runAll calls).Accounted := ⟨hattributed.opId, hattributed.makes, fun hp => hlisted _ _ _ hp⟩
    obtain ⟨habort, hok, hends⟩ := haccounted.order_ends
    refine ⟨hok, ?_, fun hcyclic => ?_, habort⟩
    · rintro _ hl pre o post rfl p hp
      exact ((haccounted.order_complete hl).schedule.mem_before p hp).resolve_left List.not_mem_nil
    · rcases hends with habort | hcycle | hl
      · exact .inr habort
      · exact .inl hcycle
      · exact absurd (hok.1 hl) hcyclic

/-- An op that is added under the name of what it reads. -/
def ownResultCalls : List Edit :=
  [.addTensor "y" ⟨.float, [2]⟩ .actGrad none, .addOp .identity ["y"] ["y"] .forward]

/-- The search breaks off at the op. -/
theorem order_after_calls_own_result : Edit.AllAllowed .empty ownResultCalls ∧
    (Edit.runAll ownResultCalls).order = .error .abort ∧ (Edit.runAll ownResultCalls).ReadersListed ∧
    ∃ o, (Edit.runAll ownResultCalls).Feeds o o ∧ (Edit.runAll ownResultCalls).Clear o := by
  have hall : Edit.AllAllowed .empty ownResultCalls := ⟨trivial, trivial, trivial⟩
  obtain ⟨-, hlisted, hright⟩ := order_after_calls ownResultCalls
  have habort : (Edit.runAll ownResultCalls).order = .error .abort := by decide
  exact ⟨hall, habort, hlisted hall, (hright (hlisted hall)).2.2.2.1 habort⟩

/-- An op is listed as a consumer of what it does not read. -/
def strayConsumerCalls : List Edit :=
  [.addTensor "x" ⟨.float, [2]⟩ .stream none, .addOp .identity ["x"] ["a"] .forward,
    .addOp .identity ["x"] ["b"] .forward, .replaceInput 1 "q" "a"]

/-- An op reads what is made only later and not under its name, and is listed as a consumer of what it does not read. -/
def misledCalls : List Edit :=
  [.addTensor "x" ⟨.float, [2]⟩ .stream none, .addOp .identity ["x"] ["a"] .forward,
    .addOp .identity ["x"] ["b"] .forward, .replaceInput 1 "x" "n", .replaceInput 1 "q" "a",
    .addOp .identity ["x"] ["n"] .forward]

/-- The search for an order breaks off at an op that reads its own result instead of reporting a cycle, it breaks off
where an op is listed as a consumer of what it does not read, and it may put an op before one that feeds it. -/
theorem order_misled :
    ((Edit.runAll ownResultCalls).order = .error .abort ∧ (Edit.runAll ownResultCalls).Feeds 0 0) ∧
    ((Edit.runAll strayConsumerCalls).order = .error .abort ∧
      ∀ op ∈ (Edit.runAll strayConsumerCalls).ops.values, ∀ t ∈ op.inputs,
        (Edit.runAll strayConsumerCalls).producer? t = none) ∧
    (Edit.runAll misledCalls).order = .ok [0, 1, 2] ∧ (Edit.runAll misledCalls).Feeds 2 1 := by
  refine ⟨⟨by decide, ?_⟩, ⟨by decide, by decide⟩, by decide, ?_⟩
  · exact ⟨{ id := 0, kind := .identity, name := "y", inputs := ["y"], outputs := ["y"], phase := .forward },
      by decide, "y", by decide, by decide⟩
  · exact ⟨{ id := 1, kind := .identity, name := "b", inputs := ["n"], outputs := ["b"], phase := .forward },
      by decide, "n", by decide, by decide⟩

end Graph

end TensorGraph
