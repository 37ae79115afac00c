import TensorGraph.Proofs.Graph.Order
import TensorGraph.Proofs.Graph.WellFormed

/-!
How the search for an order ends. On a graph without cycles it succeeds. If ops depend on each other in a cycle, the
ops behind the cycle never get ready, and the missing ops are reported. An op that reads its own result gets ready as if
it did not, and the search breaks off at it, unless it waits behind a cycle of several ops. All this asks that the
consumers of produced tensors are the ops that read them; every sequence of calls that rewires ops only from tensors
that they read to tensors that are there leads to such graphs.
-/
namespace TensorGraph

namespace Graph

variable {g g' : Graph} {o p q : OpId} {t : TensorId}

/-! ## Cycles of several ops -/

/-- Another op reads a result of the op `p`. -/
def Precedes (g : Graph) (p q : OpId) : Prop := p ≠ q ∧ g.Feeds p q

/-- The op depends on no cycle of several ops, and lies on none. -/
def Clear (g : Graph) (o : OpId) : Prop := ∀ p, Relation.ReflTransGen g.Precedes p o → ¬ Relation.TransGen g.Precedes p p

theorem Clear.of_precedes (h : g.Clear q) (hp : g.Precedes p q) : g.Clear p := fun r hr => h r (hr.tail hp)

theorem feeds_of_precedes (h : Relation.TransGen g.Precedes p q) : Relation.TransGen g.Feeds p q := by
  have hle : g.Precedes ≤ g.Feeds := fun _ _ hf => hf.2
  exact Relation.TransGen.mono hle p q h

/-- Induction along the ops before a clear op: among them there is no cycle, and there are finitely many. -/
theorem Clear.induction (hl : g.Accounted) {P : OpId → Prop}
    (step : ∀ {o op}, g.op? o = some op → g.Clear o → (∀ p, g.Precedes p o → P p) → P o) {op : Op}
    (ho : g.op? o = some op) (h : g.Clear o) : P o := by
  let T := { o // o ∈ g.ops.keys ∧ g.Clear o }
  let r : T → T → Prop := fun a b => Relation.TransGen g.Precedes a.1 b.1
  have hfinite : Finite T := (g.ops.keys.finite_toSet.subset fun o (h : _ ∧ _) => h.1).to_subtype
  have htrans : IsTrans T r := ⟨fun _ _ _ => Relation.TransGen.trans⟩
  have hirrefl : Std.Irrefl r := ⟨fun a => a.2.2 a.1 .refl⟩
  have hall : ∀ a : T, P a.1 := fun a => by
    induction a using (Finite.wellFounded_of_trans_of_irrefl r).induction with
    | _ a ih =>
      obtain ⟨op, hop⟩ := Dict.mem_keys.1 a.2.1
      refine step hop a.2.2 fun p hp => ?_
      obtain ⟨op', hp'⟩ := hl.op_of_feeds hp.2
      exact ih ⟨p, Dict.mem_keys.2 ⟨op', hp'⟩, a.2.2.of_precedes hp⟩ (.single hp)
  exact hall ⟨o, Dict.mem_keys.2 ⟨op, ho⟩, h⟩

/-! ## Where the search ends -/

/-- An op that gets ready after clear ops is clear. -/
theorem Pending.Holds.clear (hl : g.Accounted) {s : Pending} {done : List OpId} (hs : Pending.Holds g done s)
    (hdone : ∀ q ∈ done, g.Clear q) (hnot : o ∉ done) (hfed : ∀ p, p ≠ o → g.Feeds p o → p ∈ done) : g.Clear o := by
  have hclosed : ∀ {p q}, q ∈ done → Relation.ReflTransGen g.Precedes p q → p ∈ done := by
    intro p q hq hpq
    induction hpq using Relation.ReflTransGen.head_induction_on with
    | refl => exact hq
    | head hp _ ih => exact hs.mem_of_feeds hl ih hp.1 hp.2
  intro p hp hcycle
  rcases Relation.ReflTransGen.cases_tail hp with rfl | ⟨q, hpq, hq⟩
  · obtain ⟨q, hoq, hq⟩ := Relation.TransGen.tail'_iff.1 hcycle
    exact hnot (hclosed (hfed q hq.1 hq.2) hoq)
  · exact hdone p (hclosed (hfed q hq.1 hq.2) hpq) p .refl hcycle

/-- The search breaks off at a clear op that reads its own result, or all clear ops run, as far as its steps go. -/
theorem orderFrom_ends (hl : g.Accounted) : ∀ (fuel : Nat) {s : Pending} {done : List OpId}, Pending.Holds g done s →
    (∀ q ∈ done, g.Clear q) →
    (g.orderFrom fuel s = .error .abort ∧ ∃ o, g.Feeds o o ∧ g.Clear o) ∨
      ∃ l, g.orderFrom fuel s = .ok l ∧
        (l.length = fuel ∨ ∀ o op, g.op? o = some op → g.Clear o → o ∈ done ∨ o ∈ l)
  | 0, s, done, _, _ => .inr ⟨[], rfl, .inl rfl⟩
  | fuel + 1, s, done, hs, hdone => by
    rcases orderFrom_succ hl hs fuel with ⟨hnone, h⟩ | ⟨o, hready, -, hend⟩
    · refine .inr ⟨[], h, .inr fun o op ho hclear => .inl ?_⟩
      -- the first clear op that has not run would be ready
      refine Clear.induction hl (fun {q op'} hq _ hbefore => ?_) ho hclear
      by_contra hnot
      exact hnone q ((hs.ready_iff hl hq).2 ⟨hnot, fun p hne hf => hbefore p ⟨hne, hf⟩⟩)
    · obtain ⟨op, ho⟩ := hs.op_of_ready hready
      obtain ⟨hnot, hfed⟩ := (hs.ready_iff hl ho).1 hready
      have hclear := hs.clear hl hdone hnot hfed
      rcases hend with ⟨hself, habort⟩ | ⟨-, s', hs', h⟩
      · exact .inl ⟨habort, o, hself, hclear⟩
      · have hdone' : ∀ q ∈ o :: done, g.Clear q := fun q hq => by
          rcases List.mem_cons.1 hq with rfl | hq
          · exact hclear
          · exact hdone q hq
        rw [h]
        rcases orderFrom_ends hl fuel hs' hdone' with ⟨habort, hloop⟩ | ⟨l, hl', hend⟩
        · exact .inl ⟨by rw [habort]; rfl, hloop⟩
        · refine .inr ⟨o :: l, by rw [hl']; rfl, ?_⟩
          rcases hend with hlen | hall
          · exact .inl (by rw [List.length_cons, hlen])
          · refine .inr fun q op' hq hqc => ?_
            rcases hall q op' hq hqc with hd | hq
            · rcases List.mem_cons.1 hd with rfl | hd
              · exact .inr List.mem_cons_self
              · exact .inl hd
            · exact .inr (List.mem_cons_of_mem _ hq)

/-- No op of a schedule reads its own result. -/
theorem Schedule.not_feeds_self {l : List OpId} (h : Schedule g [] l) (ho : o ∈ l) : ¬ g.Feeds o o := by
  intro hf
  rcases h.feeds_before ho hf with hd | ⟨-, hlt⟩
  · cases hd
  · exact Nat.lt_irrefl _ hlt

namespace Accounted

/-- What an order can end with, and when: at a clear op that reads its own result it breaks off, and otherwise it
succeeds exactly on graphs without cycles and reports a cycle on all others. -/
theorem order_ends (hl : g.Accounted) :
    (g.order = .error .abort ↔ ∃ o, g.Feeds o o ∧ g.Clear o) ∧ ((∃ l, g.order = .ok l) ↔ g.Acyclic) ∧
      (g.order = .error .abort ∨ g.order = .graph .cycle ∨ ∃ l, g.order = .ok l) := by
  have hstart := Pending.holds_start g
  have hends := orderFrom_ends hl g.ops.size hstart (fun _ h => absurd h List.not_mem_nil)
  unfold order
  rcases hends with ⟨habort, hloop⟩ | ⟨l, hok, hend⟩
  · rw [habort]
    refine ⟨⟨fun _ => hloop, fun _ => rfl⟩, ⟨nofun, fun ha => ?_⟩, .inl rfl⟩
    obtain ⟨o, hself, -⟩ := hloop
    exact absurd (.single hself) (ha o)
  · have hsched := orderFrom_schedule hl hstart hok
    have hall : ∀ o op, g.op? o = some op → g.Clear o → o ∈ l := by
      intro o op ho hclear
      rcases hend with hlen | hall
      · exact mem_of_length hsched.nodup hsched.op hlen ho
      · exact (hall o op ho hclear).resolve_left List.not_mem_nil
    have hnone : ¬ ∃ o, g.Feeds o o ∧ g.Clear o := by
      rintro ⟨o, hself, hclear⟩
      obtain ⟨op, ho, -⟩ := id hself
      exact hsched.not_feeds_self (hall o op ho hclear) hself
    rw [hok]
    by_cases hlen : l.length = g.ops.size
    · have hresult : (Except.ok l >>= fun ids => if ids.length ≠ g.ops.size then Outcome.graph .cycle else return ids) =
          (.ok l : Outcome (List OpId)) := if_neg (not_not.2 hlen)
      rw [hresult]
      refine ⟨⟨nofun, fun h => absurd h hnone⟩, ⟨fun _ => ?_, fun _ => ⟨l, rfl⟩⟩, .inr (.inr ⟨l, rfl⟩)⟩
      exact Complete.acyclic ⟨hsched, fun ho => mem_of_length hsched.nodup hsched.op hlen ho⟩
    · have hresult : (Except.ok l >>= fun ids => if ids.length ≠ g.ops.size then Outcome.graph .cycle else return ids) =
          (.graph .cycle : Outcome (List OpId)) := if_pos hlen
      rw [hresult]
      refine ⟨⟨nofun, fun h => absurd h hnone⟩, ⟨nofun, fun ha => absurd ?_ hlen⟩, .inr (.inl rfl)⟩
      -- without cycles every op is clear, so none is missing
      have hsub : g.ops.keys ⊆ l := fun p hp => by
        obtain ⟨op, hop⟩ := Dict.mem_keys.1 hp
        exact hall p op hop fun q _ hq => ha q (feeds_of_precedes hq)
      have hge := (List.subperm_of_subset g.ops.nodup_keys hsub).length_le
      have hsize : g.ops.keys.length = g.ops.size := by simp [Dict.keys, Dict.size]
      have hle := hsched.length_le
      omega

end Accounted

/-! ## What stands before an op of the list -/

theorem Schedule.mem_before {pre post : List OpId} : ∀ {done : List OpId}, Schedule g done (pre ++ o :: post) →
    ∀ p, g.Feeds p o → p ∈ done ∨ p ∈ pre := by
  induction pre with
  | nil => exact fun h p hf => .inl (h.2.2.1 p hf)
  | cons a pre ih =>
    intro done h p hf
    rcases ih h.2.2.2 p hf with hd | hp
    · exact (List.mem_cons.1 hd).elim (fun e => .inr (e ▸ List.mem_cons_self)) .inl
    · exact .inr (List.mem_cons_of_mem _ hp)

theorem LeastFirst.le_of_fed {pre post : List OpId} : ∀ {done : List OpId}, LeastFirst g done (pre ++ o :: post) →
    ∀ {q op}, g.op? q = some op → q ∉ done → q ∉ pre → (∀ p, g.Feeds p q → p ∈ done ∨ p ∈ pre) → o ≤ q := by
  induction pre with
  | nil =>
    intro done h q op hq hnot _ hfed
    exact h.1 q op hq hnot fun p hp => (hfed p hp).resolve_right List.not_mem_nil
  | cons a pre ih =>
    intro done h q op hq hnot hpre hfed
    rw [List.mem_cons, not_or] at hpre
    refine ih h.2 hq (fun hd => (List.mem_cons.1 hd).elim hpre.1 hnot) hpre.2 fun p hp => ?_
    rcases hfed p hp with hd | hp
    · exact .inl (List.mem_cons_of_mem _ hd)
    · rcases List.mem_cons.1 hp with rfl | hp
      · exact .inl List.mem_cons_self
      · exact .inr hp

/-! ## The order is canonical -/

/-- On a well-formed graph in which no op reads its own result there is an order exactly if there are no cycles, and
a cycle is reported otherwise; no op is ever made to wait for one less than none. The order lists every op once, each
after the ops that feed it, and at every position it has the least of the ops that could come next. -/
theorem WellFormed.order_canonical (h : g.WellFormed)
    (hown : ∀ o op, g.op? o = some op → ∀ t ∈ op.outputs, t ∉ op.inputs) :
    ((∃ l, g.order = .ok l) ↔ g.Acyclic) ∧ (¬ g.Acyclic → g.order = .graph .cycle) ∧ g.order ≠ .error .abort ∧
      ∀ l, g.order = .ok l → l.Nodup ∧ (∀ o, o ∈ l ↔ ∃ op, g.op? o = some op) ∧
        ∀ pre o post, l = pre ++ o :: post → (∀ p, g.Feeds p o → p ∈ pre) ∧
          ∀ q op, g.op? q = some op → q ∉ pre → (∀ p, g.Feeds p q → p ∈ pre) → o ≤ q := by
  have hself : ∀ o, ¬ g.Feeds o o := by
    rintro o ⟨op, ho, t, hin, hp⟩
    obtain ⟨op', ho', hout⟩ := h.makes.1 hp
    cases ho.symm.trans ho'
    exact hown o op ho t hout hin
  obtain ⟨habort, hok, hends⟩ := h.linked.accounted.order_ends
  have hnever : g.order ≠ .error .abort := fun hb => by
    obtain ⟨o, ho, -⟩ := habort.1 hb
    exact hself o ho
  refine ⟨hok, fun hcyclic => ?_, hnever, fun l hl => ?_⟩
  · exact (hends.resolve_left hnever).resolve_right (mt hok.1 hcyclic)
  · have hcomplete := order_complete h.linked hl
    refine ⟨hcomplete.schedule.nodup, fun o => hcomplete.mem_iff, ?_⟩
    rintro pre o post rfl
    refine ⟨fun p hp => (hcomplete.schedule.mem_before p hp).resolve_left List.not_mem_nil, fun q op hq hnot hfed => ?_⟩
    exact (order_leastFirst h.linked hl).le_of_fed hq List.not_mem_nil hnot fun p hp => .inr (hfed p hp)

/-- An op that reads twice what an op of a greater number makes, and an op that could run at any time. -/
def turnedCalls : List Edit :=
  [.addTensor "x" ⟨.float, [2]⟩ .stream none, .addOp .sum ["x", "x"] ["a"] .forward,
    .addOp .identity ["x"] ["b"] .forward, .addOp .identity ["x"] ["c"] .forward, .replaceInput 0 "x" "b"]

def turned : Graph := turnedCalls.foldl (fun g e => (e.call.run g).2) Graph.empty

theorem turned_sound : turned.Sound := by
  have hallowed : (Edit.replaceInput 0 "x" "b").Allowed
      ((turnedCalls.take 4).foldl (fun g e => (e.call.run g).2) Graph.empty) := by
    refine ⟨?_, by decide⟩
    exact ⟨{ id := 0, kind := .sum, name := "a", inputs := ["x", "x"], outputs := ["a"], phase := .forward },
      by decide, by decide⟩
  have h : Edited Graph.empty turned :=
    .call _ (.call _ (.call _ (.call _ (.call _ .start trivial) trivial) trivial) trivial) hallowed
  exact h.sound .empty

theorem order_canonical_turned : turned.order = .ok [1, 0, 2] ∧ turned.Acyclic ∧
    ∀ p, turned.Feeds p 0 → p ∈ [1] := by
  have hown : ∀ op ∈ turned.ops.values, ∀ t ∈ op.outputs, t ∉ op.inputs := by decide
  obtain ⟨hok, -, -, hlist⟩ := turned_sound.wellFormed.order_canonical
    fun o op ho => hown op (Dict.mem_values.2 ⟨o, ho⟩)
  have horder : turned.order = .ok [1, 0, 2] := by decide
  exact ⟨horder, hok.1 ⟨_, horder⟩, ((hlist _ horder).2.2 [1] 0 [2] rfl).1⟩

end Graph

end TensorGraph
