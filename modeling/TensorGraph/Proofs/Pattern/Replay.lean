import TensorGraph.Proofs.Gradient.Backward
import TensorGraph.Proofs.Kernel.Spelling
import TensorGraph.Proofs.Pattern.BuiltIn

/-!
What the ops compute that stand in for another. They are run in the order of their numbers on values for the tensors that
were there. Where they give the result the value that the replaced op gave, the whole graph computes what it computed; and
a graph without cycles stays one, for whatever stands in for an op reads nothing that the op did not read.
-/
namespace TensorGraph

open TensorGraph.Graph Kernel

namespace Graph

variable {g g' g₁ g₂ : Graph} {o : OpId} {op new : Op} {t output : TensorId} {info : TensorInfo} {l : List TensorId}
  {n : OpId}

namespace Reading

variable {V : Type} {r : Reading V} {ν ν' : TensorId → Option V} {y : V}

/-! ## Running ops -/

/-- Runs an op, and gives its result the value that comes out. -/
def step (r : Reading V) (g : Graph) (ν : TensorId → Option V) (o : OpId) : Option (TensorId → Option V) :=
  (g.op? o).bind fun op => op.outputs.head?.bind fun t =>
    (r.apply g ν op t).map fun y => Function.update ν t (some y)

/-- Runs the ops from number `n` on, in the order of their numbers. -/
def runFrom (r : Reading V) (g : Graph) (n : OpId) (ν : TensorId → Option V) : Option (TensorId → Option V) :=
  (List.range' n (g.nextOp - n)).foldlM (r.step g) ν

theorem runFrom_nextOp : r.runFrom g g.nextOp ν = some ν := by
  rw [runFrom, Nat.sub_self]
  rfl

/-- What was there runs as before when an op is added. -/
theorem step_enters (hs : g.Sound) (he : Enters g new t info g') (ho : o < g.nextOp) : r.step g' ν o = r.step g ν o := by
  unfold step
  rw [he.added.others o (Nat.ne_of_lt ho)]
  cases hop : g.op? o with
  | none => rfl
  | some old =>
    cases hout : old.outputs.head? with
    | none => simp only [hout, Option.bind_some, Option.bind_none]
    | some u =>
      have hp : g.producer? u = some o := hs.linked.makes.2 ⟨old, hop, List.mem_of_head? hout⟩
      simp only [hout, Option.bind_some, apply, (he.added.keeps hp).2]

theorem foldlM_step_enters (hs : g.Sound) (he : Enters g new t info g') : ∀ {ids : List OpId} {ν : TensorId → Option V},
    (∀ o ∈ ids, o < g.nextOp) → ids.foldlM (r.step g') ν = ids.foldlM (r.step g) ν
  | [], _, _ => rfl
  | o :: ids, ν, h => by
    rw [List.foldlM_cons, List.foldlM_cons, step_enters hs he (h o List.mem_cons_self)]
    refine congrArg _ (funext fun μ => ?_)
    exact foldlM_step_enters hs he fun p hp => h p (List.mem_cons_of_mem o hp)

/-- The op that is added runs last. -/
theorem runFrom_enters (hs : g.Sound) (he : Enters g new t info g') (hn : n ≤ g.nextOp) (h : r.runFrom g n ν = some ν')
    (hy : r.apply g' ν' new t = some y) : r.runFrom g' n ν = some (Function.update ν' t (some y)) := by
  have hlast : r.step g' ν' g.nextOp = some (Function.update ν' t (some y)) := by
    rw [step, he.found, Option.bind_some, he.outputs, List.head?_cons, Option.bind_some, hy]
    rfl
  have hcount : g'.nextOp - n = (g.nextOp - n) + 1 := by rw [he.added.nextOp_eq, Nat.sub_add_comm hn]
  have hbound : ∀ o ∈ List.range' n (g.nextOp - n), o < g.nextOp := by
    intro o ho
    rw [List.mem_range'_1, Nat.add_sub_cancel' hn] at ho
    exact ho.2
  rw [runFrom, hcount, List.range'_1_concat, List.foldlM_append, foldlM_step_enters hs he hbound]
  change r.runFrom g n ν >>= _ = _
  rw [h, Nat.add_sub_cancel' hn]
  change r.step g' ν' g.nextOp >>= _ = _
  rw [hlast]
  rfl

/-- Run on the values of a graph, its ops give these. -/
theorem runFrom_value? (ha : g.Acyclic) (hl : g.Linked) (h : r.runFrom g n (r.value? g) = some ν) : ν = r.value? g := by
  have hstep : ∀ {o μ}, r.step g (r.value? g) o = some μ → μ = r.value? g := by
    intro o μ h
    obtain ⟨op, ho, h⟩ := Option.bind_eq_some_iff.1 h
    obtain ⟨t, ht, h⟩ := Option.bind_eq_some_iff.1 h
    obtain ⟨y, hy, rfl⟩ := Option.map_eq_some_iff.1 h
    have hp : g.producer? t = some o := hl.makes.2 ⟨op, ho, List.mem_of_head? ht⟩
    rw [← hy, ← value?_op r ha hl hp ho, Function.update_eq_self]
  have hall : ∀ {ids : List OpId}, ids.foldlM (r.step g) (r.value? g) = some ν → ν = r.value? g := by
    intro ids
    induction ids with
    | nil => exact fun h => (Option.some.inj h).symm
    | cons o ids ih =>
      intro h
      rw [List.foldlM_cons] at h
      obtain ⟨μ, hμ, h⟩ := Option.bind_eq_some_iff.1 h
      rw [hstep hμ] at h
      exact ih h
  exact hall h

end Reading

/-! ## Cycles -/

/-- If every feed is one of a graph without cycles once ops are identified by `φ`, or leads from an op to one of a greater
number with which it is identified, then there are no cycles. -/
theorem Acyclic.of_map (h : g.Acyclic) {φ : OpId → OpId}
    (hf : ∀ {p q}, g'.Feeds p q → g.Feeds (φ p) (φ q) ∨ φ p = φ q ∧ p < q) : g'.Acyclic := by
  have hchain : ∀ {p q}, Relation.TransGen g'.Feeds p q →
      Relation.TransGen g.Feeds (φ p) (φ q) ∨ φ p = φ q ∧ p < q := by
    intro p q hpq
    induction hpq with
    | single h => exact (hf h).imp_left .single
    | tail _ h ih =>
      rcases ih with ih | ⟨hsame, hlt⟩ <;> rcases hf h with h | ⟨hsame', hlt'⟩
      · exact .inl (ih.tail h)
      · exact .inl (hsame' ▸ ih)
      · exact .inl (.single (hsame ▸ h))
      · exact .inr ⟨hsame.trans hsame', hlt.trans hlt'⟩
  intro o ho
  rcases hchain ho with ho | ⟨-, hlt⟩
  · exact h _ ho
  · exact Nat.lt_irrefl o hlt

/-- What is known of the ops that were added for another: they have the numbers from `n` on, and read what that op reads or
what ops with smaller numbers among them give. -/
structure Beyond (op : Op) (n : OpId) (g g' : Graph) : Prop where
  reads : ∀ {q reader}, g'.op? q = some reader → g.op? q = some reader ∧ q < n ∨ n ≤ q ∧
    ∀ i ∈ reader.inputs, i ∈ op.inputs ∨ ∃ p, n ≤ p ∧ p < q ∧ g'.producer? i = some p
  producer : ∀ {t p}, g'.producer? t = some p → g.producer? t = some p ∧ p < n ∨
    n ≤ p ∧ (t ∈ op.outputs ∨ g.tensor? t = none)

/-- What stands in for an op reads nothing that the op did not read, so there is no new cycle. -/
theorem Beyond.acyclic (h : Beyond op n g g') (hl : g.Linked) (ho : g.op? op.id = some op) (ha : g.Acyclic) :
    g'.Acyclic := by
  -- whatever stands in for the op is identified with it
  refine ha.of_map (φ := fun o => if o < n then o else op.id) fun {p q} hf => ?_
  obtain ⟨reader, hq, t, ht, hp⟩ := hf
  have hfeeds : ∀ {q reader}, g.op? q = some reader → t ∈ reader.inputs → g.Feeds (if p < n then p else op.id) q := by
    intro q reader hq ht
    rcases h.producer hp with ⟨hp, hlt⟩ | ⟨hle, ht' | ht'⟩
    · rw [if_pos hlt]
      exact ⟨reader, hq, t, ht, hp⟩
    · rw [if_neg (Nat.not_lt.2 hle)]
      exact ⟨reader, hq, t, ht, hl.makes.2 ⟨op, ho, ht'⟩⟩
    · exact absurd (.inl ht) (hl.not_mentioned ht' hq)
  rcases h.reads hq with ⟨hq, hlt⟩ | ⟨hle, hreads⟩
  · left
    simp only [if_pos hlt]
    exact hfeeds hq ht
  · simp only [if_neg (Nat.not_lt.2 hle)]
    rcases hreads t ht with ht | ⟨p', hle', hlt', hp'⟩
    · exact .inl (hfeeds ho ht)
    · cases hp.symm.trans hp'
      rw [if_neg (Nat.not_lt.2 hle')]
      exact .inr ⟨rfl, hlt'⟩

theorem Beyond.of_detached (hs : g.Sound) (hd : DroppedOp g op.id op false g') : Beyond op g.nextOp g g' := by
  refine ⟨fun {q reader} hq => ?_, fun {t p} hp => ?_⟩
  · obtain ⟨-, hq⟩ := hd.op?_eq_some.1 hq
    exact .inl ⟨hq, hs.opBound hq⟩
  · rw [hd.producer?_eq] at hp
    split at hp
    · cases hp
    · obtain ⟨other, hother, -⟩ := hs.linked.op_of_producer hp
      exact .inl ⟨hp, hs.opBound hother⟩

theorem Beyond.enters (h : Beyond op n g g₁) (he : Enters g₁ new t info g₂) (hn : n ≤ g₁.nextOp)
    (hreads : ∀ i ∈ new.inputs, i ∈ op.inputs ∨ ∃ p, n ≤ p ∧ p < g₁.nextOp ∧ g₁.producer? i = some p)
    (hout : t ∈ op.outputs ∨ g.tensor? t = none) : Beyond op n g g₂ := by
  have hkeep : ∀ {i q}, (∃ p, n ≤ p ∧ p < q ∧ g₁.producer? i = some p) → ∃ p, n ≤ p ∧ p < q ∧ g₂.producer? i = some p :=
    fun ⟨p, hle, hlt, hp⟩ => ⟨p, hle, hlt, (he.added.keeps hp).1⟩
  refine ⟨fun {q reader} hq => ?_, fun {u p} hp => ?_⟩
  · rcases he.op_cases hq with ⟨rfl, rfl⟩ | ⟨-, hq⟩
    · exact .inr ⟨hn, fun i hi => (hreads i hi).imp_right hkeep⟩
    · exact (h.reads hq).imp_right fun ⟨hle, hall⟩ => ⟨hle, fun i hi => (hall i hi).imp_right hkeep⟩
  · rcases he.producer_cases hp with ⟨rfl, rfl⟩ | ⟨-, hp⟩
    · exact .inr ⟨hn, hout⟩
    · exact h.producer hp

/-- Ops beside another add to a graph, and have the next numbers. -/
theorem Beside.partOf (hb : Beside op l g₁ g₂) (hs : g₁.Sound) : g₁.PartOf g₂ ∧ g₂.Sound := by
  induction hb with
  | start => exact ⟨.refl _, hs⟩
  | add _ he hfresh _ ih =>
    obtain ⟨hpart, hs'⟩ := ih hs
    exact ⟨hpart.trans (he.added.partOf (fun _ _ => hs'.opBound) hfresh), he.sound⟩

theorem Beside.beyond (hb : Beside op l g₁ g₂) (hs : g₁.Sound) (h : Beyond op n g g₁) (hn : n ≤ g₁.nextOp)
    (hfree : ∀ t, g₁.tensor? t = none → g.tensor? t = none) : Beyond op n g g₂ ∧ n ≤ g₂.nextOp ∧
      ∀ i ∈ l, ∃ p, n ≤ p ∧ p < g₂.nextOp ∧ g₂.producer? i = some p := by
  induction hb with
  | start => exact ⟨h, hn, fun _ hi => absurd hi List.not_mem_nil⟩
  | @add l g₁ g₂ g₃ new t info hb he hfresh hstands ih =>
    obtain ⟨hbeyond, hle, hlist⟩ := ih hs h hn hfree
    have hold : g₁.tensor? t = none := by
      cases hx : g₁.tensor? t with
      | none => rfl
      | some x =>
        obtain ⟨x', hx'⟩ := (hb.partOf hs).1.found ⟨x, hx⟩
        rw [hfresh] at hx'
        cases hx'
    have hnext : g₃.nextOp = g₂.nextOp + 1 := he.added.nextOp_eq
    refine ⟨hbeyond.enters he hle (fun i hi => (hstands.reads i hi).imp_right (hlist i)) (.inr (hfree t hold)),
      hnext ▸ Nat.le_succ_of_le hle, fun i hi => ?_⟩
    rcases List.mem_cons.1 hi with rfl | hi
    · exact ⟨g₂.nextOp, hle, hnext ▸ Nat.lt_succ_self _, he.added.producer_output⟩
    · obtain ⟨p, hp, hlt, hproducer⟩ := hlist i hi
      exact ⟨p, hp, hnext ▸ Nat.lt_succ_of_lt hlt, (he.added.keeps hproducer).1⟩

/-! ## Graphs in which an op was replaced -/

/-- All but the op `op` is in `g'` as it was in `g`, and ops that stand in for `op` were added. -/
structure Respelled (op : Op) (g g' : Graph) : Prop where
  found : g.op? op.id = some op
  beyond : Beyond op g.nextOp g g'
  sound : g'.Sound
  others : ∀ {q reader}, q ≠ op.id → g.op? q = some reader → g'.op? q = some reader
  producer : ∀ {t x}, g.tensor? t = some x → t ∉ op.outputs → g'.producer? t = g.producer? t
  info : ∀ {t i}, g.info? t = some i → g'.info? t = some i

theorem Replaces.respelled (hr : Replaces op output info g g') (hs : g.Sound) (hout : op.outputs = [output])
    (hinfo : g.info? output = some info) : Respelled op g g' := by
  obtain ⟨g₁, g₂, l, new, hd, hb, he, hstands⟩ := hr
  have hs₁ : g₁.Sound := hs.dropOp hd nofun
  obtain ⟨hpart, hs₂⟩ := hb.partOf hs₁
  have hnext : g₁.nextOp = g.nextOp := by rw [hd.frame]
  have hfree : ∀ t, g₁.tensor? t = none → g.tensor? t = none := by
    intro t ht
    rw [hd.tensor?_eq, if_neg (by simp)] at ht
    exact Option.map_eq_none_iff.1 ht
  obtain ⟨hbeyond, hle, hlist⟩ := hb.beyond hs₁ (.of_detached hs hd) hnext.ge hfree
  refine ⟨hd.found, hbeyond.enters he hle (fun i hi => (hstands.reads i hi).imp_right (hlist i)) (.inl (by simp [hout])),
    he.sound, fun {q reader} hne hq => ?_, fun {t x} hx hnot => ?_, fun {t i} hi => ?_⟩
  · have hq₁ : g₁.op? q = some reader := by rw [hd.op?_eq, if_neg hne, hq]
    exact he.op?_of hs₂ (hpart.op hq₁)
  · have hne : t ≠ output := fun heq => hnot (by simp [hout, heq])
    have hx₁ : g₁.producer? t = g.producer? t := producer?_congr (hd.bare_eq hnot)
    obtain ⟨x₁, hx₁', -⟩ := Option.map_eq_some_iff.1 ((hd.bare_eq hnot).trans (congrArg (Option.map bare) hx))
    rw [producer?_congr (he.added.bare_eq t hne), hpart.producer hx₁', hx₁]
  · have hi₁ : g₁.info? t = some i := (hd.info?_eq t).trans hi
    by_cases hto : t = output
    · rw [hto, he.info?_output, ← hinfo, ← hto, hi]
    · exact he.info?_of (hpart.info hi₁) hto

end Graph

/-! ## Values -/

variable {R : Type} {g g' : Graph} {op new : Op} {t output : TensorId} {info : TensorInfo} {n : OpId}
  {ν ν₁ : TensorId → Option (Operand R)} {x y : Operand R} {xs : List (Operand R)}

/-- The value that `ν` gives to a tensor is `x`, which has the info of the tensor, and the elements that this asks for. -/
structure Graph.Carries (g : Graph) (ν : TensorId → Option (Operand R)) (t : TensorId) (x : Operand R) : Prop where
  value : ν t = some x
  info : g.info? t = some x.info
  complete : x.Complete

theorem Graph.of_carries {ids : List TensorId} (h : List.Forall₂ (Carries g ν) ids xs) :
    ids.mapM ν = some xs ∧ ids.mapM g.info? = some (xs.map (·.info)) ∧ ∀ x ∈ xs, x.Complete := by
  refine ⟨mapM_eq_some_iff.2 (h.imp fun _ _ hc => hc.value),
    mapM_eq_some_iff.2 (List.forall₂_map_right_iff.2 (h.imp fun _ _ hc => hc.info)), ?_⟩
  induction h with
  | nil => exact fun _ hx => absurd hx List.not_mem_nil
  | cons hc _ ih =>
    intro x hx
    rcases List.mem_cons.1 hx with rfl | hx
    · exact hc.complete
    · exact ih x hx

variable [Field R] {f : Numbers R}

namespace Graph

/-- The values that are given have the infos of their tensors. -/
def Fed (g : Graph) (a : TensorId → Option (Operand R)) : Prop :=
  ∀ t x, g.hasTensor t = true → g.producer? t = none → a t = some x → g.Carries a t x

/-- What is computed from such values has the info of its tensor, too. -/
theorem Fed.evalAt {a : TensorId → Option (Operand R)} (h : g.Fed a) (ht : g.hasTensor t = true) {m : Nat}
    (hx : (exactly f a).evalAt g m t = some x) : g.info? t = some x.info ∧ x.Complete := by
  cases m with
  | zero => cases hx
  | succ m =>
    rw [Reading.evalAt] at hx
    cases hp : g.producer? t with
    | none =>
      simp only [hp] at hx
      have hcarries := h t x ht hp hx
      exact ⟨hcarries.info, hcarries.complete⟩
    | some o =>
      simp only [hp] at hx
      obtain ⟨op, -, hx⟩ := Option.bind_eq_some_iff.1 hx
      obtain ⟨xs, -, hx⟩ := Option.bind_eq_some_iff.1 hx
      obtain ⟨i, hi, hx⟩ := Option.bind_eq_some_iff.1 hx
      obtain ⟨hinfo, hcount, -⟩ := @exact_ok R f.scalar _ _ _ _ (toOption_eq_some.1 hx)
      rw [Operand.Complete, hinfo]
      exact ⟨hi, hcount⟩

/-- Run on any values of the operands of `op` for which its kernel gives a value, the ops that stand in for it give its
result that value. -/
def Reenacts (f : Numbers R) (op : Op) (output : TensorId) (info : TensorInfo) (g g' : Graph) : Prop :=
  ∀ ν xs y, List.Forall₂ (Carries g ν) op.inputs xs → @exact R f.scalar op.kind xs info = .ok y →
    ∃ ν', (exactly f ν).runFrom g' g.nextOp ν = some ν' ∧ ν' output = some y

/-- The whole graph then computes what it computed. -/
theorem Reenacts.value? (h : Reenacts f op output info g g') (hr : Respelled op g g') (hs : g.Sound) (ha : g.Acyclic)
    (hout : op.outputs = [output]) (hinfo : g.info? output = some info) {a : TensorId → Option (Operand R)}
    (hfed : g.Fed a) (ht : g.hasTensor t = true) (hx : (exactly f a).value? g t = some x) :
    (exactly f a).value? g' t = some x := by
  have ha' : g'.Acyclic := hr.beyond.acyclic hs.linked hr.found ha
  have hind : ∀ (m : Nat) {t x}, g.hasTensor t = true → (exactly f a).evalAt g m t = some x →
      (exactly f a).value? g' t = some x := by
    intro m
    induction m with
    | zero => exact fun _ hx => nomatch hx
    | succ m ih =>
      intro t x ht hx
      rw [Reading.evalAt] at hx
      obtain ⟨z, hz⟩ := hasTensor_iff.1 ht
      cases hp : g.producer? t with
      | none =>
        simp only [hp] at hx
        have hnot : t ∉ op.outputs := by
          intro hmem
          rw [hs.linked.makes.2 ⟨op, hr.found, hmem⟩] at hp
          cases hp
        rw [Reading.value?_source _ ((hr.producer hz hnot).trans hp)]
        exact hx
      | some o =>
        simp only [hp] at hx
        obtain ⟨reader, ho, hx⟩ := Option.bind_eq_some_iff.1 hx
        obtain ⟨xs, hxs, hx⟩ := Option.bind_eq_some_iff.1 hx
        obtain ⟨i, hi, hx⟩ := Option.bind_eq_some_iff.1 hx
        obtain ⟨reader', ho', hmem⟩ := hs.linked.op_of_producer hp
        cases ho.symm.trans ho'
        have hinputs := (List.forall₂_and_left reader.inputs xs).2
          ⟨fun j hj => hasTensor_iff.2 (hs.linked.hasTensor_of_input ho hj), mapM_eq_some_iff.1 hxs⟩
        by_cases hop : o = op.id
        · subst hop
          cases hr.found.symm.trans ho
          obtain rfl : t = output := by simpa [hout] using hmem
          cases hinfo.symm.trans hi
          have hcarried : List.Forall₂ (Carries g ((exactly f a).value? g')) op.inputs xs :=
            hinputs.imp fun j v hj => ⟨ih hj.1 hj.2, (hfed.evalAt hj.1 hj.2).1, (hfed.evalAt hj.1 hj.2).2⟩
          obtain ⟨ν', hrun, hν'⟩ := h _ _ _ hcarried (toOption_eq_some.1 hx)
          have hsame : ν' = (exactly f a).value? g' := Reading.runFrom_value? (r := exactly f a) ha' hr.sound.linked hrun
          rw [← hsame, hν']
        · have hnot : t ∉ op.outputs := fun hmem =>
            hop (Option.some.inj (hp.symm.trans (hs.linked.makes.2 ⟨op, hr.found, hmem⟩)))
          rw [Reading.value?_op _ ha' hr.sound.linked ((hr.producer hz hnot).trans hp) (hr.others hop ho)]
          have hvalues : reader.inputs.mapM ((exactly f a).value? g') = some xs :=
            mapM_eq_some_iff.2 (hinputs.imp fun j v hj => ih hj.1 hj.2)
          exact Option.bind_eq_some_iff.2 ⟨xs, hvalues, Option.bind_eq_some_iff.2 ⟨i, hr.info hi, hx⟩⟩
  exact hind _ ht hx

end Graph

/-! ## Inserting ops that are run -/

/-- The ops that were added from number `n` on were run on `ν`, and gave the values `ν₁`. -/
structure Graph.Ran (f : Numbers R) (n : OpId) (ν : TensorId → Option (Operand R)) (g : Graph)
    (ν₁ : TensorId → Option (Operand R)) : Prop where
  sound : g.Sound
  le : n ≤ g.nextOp
  run : (exactly f ν).runFrom g n ν = some ν₁

namespace Graph.Ran

variable {kind : OpKind} {inputs : List TensorId} {r r' : Editor}

theorem enters (h : Ran f n ν g ν₁) (he : Enters g new t info g') (hin : List.Forall₂ (Carries g ν₁) new.inputs xs)
    (hy : ComesTo f new.kind xs y) :
    Ran f n ν g' (Function.update ν₁ t (some y)) ∧ Carries g' (Function.update ν₁ t (some y)) t y := by
  obtain ⟨hvalues, hinfos, -⟩ := of_carries hin
  obtain ⟨infos, hinfos', hinfer⟩ := he.added.infers
  cases hinfos.symm.trans (mapM_info_eq_ok.1 hinfos')
  have hexact := hy info hinfer
  have hrun : (exactly f ν).apply g' ν₁ new t = some y :=
    Option.bind_eq_some_iff.2 ⟨xs, hvalues, Option.bind_eq_some_iff.2 ⟨info, he.info?_output, toOption_eq_some.2 hexact⟩⟩
  obtain ⟨hinfo, hcount, -⟩ := @exact_ok R f.scalar _ _ _ _ hexact
  refine ⟨⟨he.sound, he.added.nextOp_eq ▸ Nat.le_succ_of_le h.le, Reading.runFrom_enters h.sound he h.le h.run hrun⟩,
    Function.update_self .., ?_, ?_⟩
  · rw [he.info?_output, hinfo]
  · rw [Operand.Complete, hinfo]
    exact hcount

/-- An op beside the one that is replaced: what was known of values is still known. -/
theorem beside (h : Ran f n ν r.graph ν₁) (hrun : (Editor.insertBeside op kind inputs).run r = (.ok t, r'))
    (hin : List.Forall₂ (Carries r.graph ν₁) inputs xs) (hy : ComesTo f kind xs y) : ∃ ν₂, Ran f n ν r'.graph ν₂ ∧
      Carries r'.graph ν₂ t y ∧ ∀ {i x}, Carries r.graph ν₁ i x → Carries r'.graph ν₂ i x := by
  obtain ⟨hfresh, new, info, he, rfl, rfl, -⟩ := Editor.run_insertBeside_ok h.sound hrun
  obtain ⟨hran, hcarries⟩ := h.enters he hin hy
  refine ⟨_, hran, hcarries, fun {i x} hi => ?_⟩
  have hne : i ≠ t := by
    rintro rfl
    obtain ⟨z, hz, -⟩ := info?_eq_some.1 hi.info
    rw [hfresh] at hz
    cases hz
  exact ⟨(Function.update_of_ne hne ..).trans hi.value, he.info?_of hi.info hne, hi.complete⟩

/-- The op that produces the result. -/
theorem conclude (h : Ran f n ν r.graph ν₁) (hout : op.outputs = [output])
    (hrun : (Pattern.conclude op kind inputs).run r = (.ok (), r'))
    (hin : List.Forall₂ (Carries r.graph ν₁) inputs xs) (hy : ComesTo f kind xs y) :
    ∃ ν', (exactly f ν).runFrom r'.graph n ν = some ν' ∧ ν' output = some y := by
  have houtput : op.output = .ok output := by simp [Op.output, hout, Outcome.promised]
  obtain ⟨_, heq, hrun⟩ := Stateful.run_liftM_bind_ok.1 hrun
  rw [houtput] at heq
  cases heq
  obtain ⟨new, info, he, rfl, rfl, -⟩ := Editor.run_insertAs_ok h.sound hrun
  obtain ⟨hran, hcarries⟩ := h.enters he hin hy
  exact ⟨_, hran.run, hcarries.value⟩

end Graph.Ran

end TensorGraph
