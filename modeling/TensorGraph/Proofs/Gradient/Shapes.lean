import TensorGraph.Proofs.Gradient.Undo
import TensorGraph.Proofs.Graph.Typed

/-!
Gradients have the shapes of what they are gradients for. Each rule for a kind is proved to keep to that, where the
incoming gradient has the shape of the result of the op and no operand has an extent below zero; the ops that it adds
have the infos that are inferred for them.
-/
namespace TensorGraph

open TensorGraph.Graph OpKind

/-! ## Single ops -/

namespace GradM

variable {s s' : Synthesis} {owner : Op} {kind : OpKind} {inputs : List TensorId} {output t : TensorId}

/-- What an op of the backward pass says of itself. -/
structure Emitted (owner : Op) (kind : OpKind) (inputs : List TensorId) (op : Op) : Prop where
  kind : op.kind = kind
  inputs : op.inputs = inputs
  phase : op.phase = .backward
  forwardOp : op.forwardOp = some owner.id
  virtualGraph : op.virtualGraph = owner.virtualGraph
  unmarked : op.inPlace = false

theorem addOp_enters (hs : s.graph.Sound) (h : (addOp owner kind inputs output).run s = (.ok (), s')) :
    s'.partials = s.partials ∧ ∃ op info, Emitted owner kind inputs op ∧ Enters s.graph op output info s'.graph := by
  obtain ⟨id, s₁, hcall, h⟩ := Stateful.run_bind_ok.1 h
  obtain ⟨g₁, hadd, rfl⟩ := run_onGraph_ok hcall
  obtain ⟨output', info, hout, rfl, ha⟩ := Graph.addOp_ok (Stateful.run_change_ok.1 hadd)
  cases hout
  cases h
  have he := Enters.of_addedOp hs ha
    (f := fun op => { op with forwardOp := some owner.id, virtualGraph := owner.virtualGraph })
    (fun _ => rfl) (fun _ => rfl) (fun _ => rfl) fun _ => rfl
  refine ⟨rfl, _, info, ?_, he⟩
  exact ⟨rfl, rfl, rfl, rfl, rfl, rfl⟩

theorem addFresh_enters {base : TensorId} (hs : s.graph.Sound)
    (h : (addFresh owner kind inputs base).run s = (.ok t, s')) : s.graph.tensor? t = none ∧
      s'.partials = s.partials ∧ ∃ op info, Emitted owner kind inputs op ∧ Enters s.graph op t info s'.graph := by
  obtain ⟨output, s₁, hcall, h⟩ := Stateful.run_bind_ok.1 h
  obtain ⟨g₁, hchange, rfl⟩ := run_onGraph_ok hcall
  have htemp := Stateful.run_change_ok.1 hchange
  obtain ⟨_, s₂, hadd, h⟩ := Stateful.run_bind_ok.1 h
  cases h
  have hfresh := tempId_fresh (g := s.graph) (gradId base)
  obtain ⟨n, hsnd⟩ := tempId_snd (g := s.graph) (gradId base)
  rw [Except.ok.injEq] at htemp
  rw [htemp] at hfresh hsnd
  simp only at hfresh hsnd
  subst hsnd
  have hs' : ({ s.graph with nextTemp := n } : Graph).Sound :=
    hs.of_bare (hs.linked.of_lookups (fun _ => rfl) fun _ => rfl) (fun ho => ⟨_, ho⟩) (fun _ => rfl) rfl rfl
  obtain ⟨hpartials, op, info, hop, he⟩ :=
    addOp_enters (s := { s with graph := { s.graph with nextTemp := n } }) hs' hadd
  exact ⟨hfresh, hpartials, op, info, hop, he.of_nextTemp⟩

/-- A property of graphs that stays when an op is added under a fresh name, where a gradient of a function of one element
gets two operands of one shape. -/
def Keeps (I : Graph → Prop) : Prop :=
  ∀ {owner : Op} {kind : OpKind} {inputs : List TensorId} {base t : TensorId} {s s' : Synthesis}, I s.graph →
    (addFresh owner kind inputs base).run s = (.ok t, s') →
    (∀ f i j, kind = .unaryGrad f → inputs.mapM s.graph.info? = some [i, j] → j.shape = i.shape) → I s'.graph

theorem keeps_typed : Keeps fun g => g.Sound ∧ g.Typed := by
  rintro owner kind inputs base t s s' ⟨hsound, htyped⟩ hrun hmatch
  obtain ⟨hfresh, -, op, info, ⟨rfl, rfl, -, -, -, -⟩, he⟩ := addFresh_enters hsound hrun
  refine ⟨he.sound, htyped.enters hsound he (fun i hi => ?_) hmatch⟩
  rw [info?, hfresh] at hi
  cases hi

end GradM

/-! ## Calls of rules -/

/-- A tensor is in the graph, with the given shape. -/
def Graph.HasShape (g : Graph) (t : TensorId) (s : Shape) : Prop := ∃ i, g.info? t = some i ∧ i.shape = s

namespace GradCall

/-- What a rule may rely on: the operands of the op have the infos `is`, its result has the inferred info `out`, and the
incoming gradient has the shape of the result. -/
structure Faces (c : GradCall) (is : List TensorInfo) (out : TensorInfo) (g : Graph) : Prop where
  linked : g.Linked
  numbered : g.Numbered
  inputs : c.op.inputs.mapM g.info? = some is
  output : ∀ {t}, c.op.output = .ok t → g.info? t = some out
  infers : c.op.kind.infer is = .ok out
  sized : ∀ i ∈ is, i.shape.Sized
  incoming : g.HasShape c.incoming out.shape

/-- The gradient for operand `k` has its shape. -/
def Suits (is : List TensorInfo) (k : Nat) (g : Graph) (t : TensorId) : Prop :=
  ∃ i, is[k]? = some i ∧ g.HasShape t i.shape

/-- Every successful run of a call, from where `P` holds, keeps what rules rely on, all infos, and each property of graphs
that stays when ops with matching operands are added. It gives a result of which `Q` holds. -/
def Shapes (c : GradCall) (is : List TensorInfo) (out : TensorInfo) {α : Type} (P : Graph → Prop) (x : GradM α)
    (Q : α → Graph → Prop) : Prop :=
  ∀ s a s', c.Faces is out s.graph → P s.graph → x.run s = (.ok a, s') →
    c.Faces is out s'.graph ∧ (∀ {t i}, s.graph.info? t = some i → s'.graph.info? t = some i) ∧
      (∀ I, GradM.Keeps I → I s.graph → I s'.graph) ∧ Q a s'.graph

variable {c : GradCall} {is : List TensorInfo} {out : TensorInfo} {g : Graph} {t : TensorId} {k : Nat}

theorem infos_single {i : TensorInfo} (h : [t].mapM g.info? = some [i]) : g.info? t = some i := by
  obtain ⟨i', _, hi, -, heq⟩ := List.forall₂_cons_left_iff.1 (mapM_eq_some_iff.1 h)
  cases heq
  exact hi

namespace Faces

theorem info_input (h : c.Faces is out g) (ht : c.op.input k = .ok t) : g.info? t = is[k]? := by
  rw [Op.input, Outcome.promised_eq_ok] at ht
  have hall := mapM_eq_some_iff.1 h.inputs
  obtain ⟨hk, rfl⟩ := List.getElem?_eq_some_iff.1 ht
  have hk' : k < is.length := hall.length_eq ▸ hk
  rw [List.getElem?_eq_getElem hk']
  exact (List.forall₂_iff_get.1 hall).2 k hk hk'

/-- The infos of the operands of an op that reads the incoming gradient first. -/
theorem infos_cons (h : c.Faces is out g) {rest : List TensorId} {infos : List TensorInfo}
    (hm : (c.incoming :: rest).mapM g.info? = some infos) :
    ∃ j infos', infos = j :: infos' ∧ j.shape = out.shape ∧ rest.mapM g.info? = some infos' := by
  obtain ⟨j, hj, hshape⟩ := h.incoming
  obtain ⟨j', infos', hj', hrest, rfl⟩ := List.forall₂_cons_left_iff.1 (mapM_eq_some_iff.1 hm)
  cases hj.symm.trans hj'
  exact ⟨j, infos', rfl, hshape, mapM_eq_some_iff.2 hrest⟩

theorem infos_one (h : c.Faces is out g) {infos : List TensorInfo} (hm : [c.incoming].mapM g.info? = some infos) :
    ∃ j, infos = [j] ∧ j.shape = out.shape := by
  obtain ⟨j, infos', rfl, hshape, hrest⟩ := h.infos_cons hm
  cases hrest
  exact ⟨j, rfl, hshape⟩

theorem infos_two (h : c.Faces is out g) {infos : List TensorInfo} (hm : [c.incoming, t].mapM g.info? = some infos) :
    ∃ j i, infos = [j, i] ∧ j.shape = out.shape ∧ g.info? t = some i := by
  obtain ⟨j, infos', rfl, hshape, hrest⟩ := h.infos_cons hm
  obtain ⟨i, infos'', hi, hnil, rfl⟩ := List.forall₂_cons_left_iff.1 (mapM_eq_some_iff.1 hrest)
  cases hnil
  exact ⟨j, i, rfl, hshape, hi⟩

end Faces

namespace Shapes

variable {α β : Type} {P : Graph → Prop} {Q : α → Graph → Prop} {Q' : β → Graph → Prop}

protected theorem pure {a : α} (h : ∀ g, P g → Q a g) : c.Shapes is out P (pure a) Q := by
  intro s a' s' hf hP hrun
  cases hrun
  exact ⟨hf, id, fun _ _ => id, h s.graph hP⟩

protected theorem bind {x : GradM α} {f : α → GradM β} (hx : c.Shapes is out P x Q)
    (hf : ∀ a, c.Shapes is out (Q a) (f a) Q') : c.Shapes is out P (x >>= f) Q' := by
  intro s b s' hfaces hP hrun
  obtain ⟨a, s₁, hrun₁, hrun₂⟩ := Stateful.run_bind_ok.1 hrun
  obtain ⟨hfaces₁, hkeep, hstays, hQ⟩ := hx s a s₁ hfaces hP hrun₁
  obtain ⟨hfaces', hkeep', hstays', hQ'⟩ := hf a s₁ b s' hfaces₁ hQ hrun₂
  exact ⟨hfaces', fun hi => hkeep' (hkeep hi), fun I hI hs => hstays' I hI (hstays I hI hs), hQ'⟩

/-- A call that does not touch the graph. -/
theorem ask {o : Outcome α} {f : α → GradM β} (hf : ∀ a, o = .ok a → c.Shapes is out P (f a) Q') :
    c.Shapes is out P (liftM o >>= f) Q' := by
  intro s b s' hfaces hP hrun
  obtain ⟨a, ha, hrun₂⟩ := Stateful.run_liftM_bind_ok.1 hrun
  exact hf a ha _ b s' hfaces hP hrun₂

theorem askShape {f : Shape → GradM β} (hf : ∀ i, is[k]? = some i → c.Shapes is out P (f i.shape) Q') :
    c.Shapes is out P (c.shape k >>= f) Q' := by
  intro s b s' hfaces hP hrun
  obtain ⟨shape, s₁, hrun₁, hrun₂⟩ := Stateful.run_bind_ok.1 hrun
  replace hrun₁ := Stateful.of_get_bind hrun₁
  obtain ⟨t, ht, hrun₁⟩ := Stateful.run_liftM_bind_ok.1 hrun₁
  obtain ⟨i, hi, hrun₁⟩ := Stateful.run_liftM_bind_ok.1 hrun₁
  rw [Graph.info, Outcome.orFail_eq_ok] at hi
  cases hrun₁
  exact hf i ((hfaces.info_input ht).symm.trans hi) _ b s' hfaces hP hrun₂

/-- An op is added. Its result has the shape that follows from the infos of its operands; a gradient of a function of
one element must get two operands of one shape. -/
theorem emit {kind : OpKind} {inputs : List TensorId} {d : Shape}
    (h : ∀ {g infos info}, c.Faces is out g → P g → inputs.mapM g.info? = some infos → kind.infer infos = .ok info →
      info.shape = d ∧ ∀ f i j, kind = .unaryGrad f → infos = [i, j] → j.shape = i.shape) :
    c.Shapes is out P (c.emit kind inputs) fun t g => g.HasShape t d := by
  intro s t s' hfaces hP hrun
  obtain ⟨base, -, hrun⟩ := Stateful.run_liftM_bind_ok.1 hrun
  obtain ⟨hfresh, -, info, ha⟩ := GradM.addFresh_ok hfaces.linked hfaces.numbered hrun
  obtain ⟨infos, hinfos, hinfer⟩ := ha.infers
  rw [mapM_info_eq_ok] at hinfos
  obtain ⟨hshape, hmatch⟩ := h hfaces hP hinfos hinfer
  have hkeep : ∀ {t' i}, s.graph.info? t' = some i → s'.graph.info? t' = some i := by
    intro t' i hi
    obtain ⟨x, hx, rfl⟩ := info?_eq_some.1 hi
    have hne : t' ≠ t := by
      rintro rfl
      rw [hfresh] at hx
      cases hx
    obtain ⟨x', hx', -, hinfo, -⟩ := ha.lookup hne hx
    exact info?_eq_some.2 ⟨x', hx', hinfo⟩
  obtain ⟨x, hx, -, hinfo, -⟩ := ha.result
  refine ⟨⟨ha.linked, ha.numbered hfaces.numbered, ?_, fun ht => hkeep (hfaces.output ht), hfaces.infers, hfaces.sized,
    ?_⟩, hkeep, fun I hI hs => hI hs hrun fun f i j hk hij => ?_, info, info?_eq_some.2 ⟨x, hx, hinfo⟩, hshape⟩
  · have hall := mapM_eq_some_iff.1 hfaces.inputs
    exact mapM_eq_some_iff.2 (hall.imp fun _ _ => hkeep)
  · obtain ⟨j, hj, hjs⟩ := hfaces.incoming
    exact ⟨j, hkeep hj, hjs⟩
  · exact hmatch f i j hk (Option.some.inj (hinfos.symm.trans hij))

/-- The gradient for an operand, if it needs one. -/
theorem operand {x : GradM TensorId} (hx : c.Shapes is out P x fun t g => Suits is k g t) :
    c.Shapes is out P (c.operand k x) fun gradient g => ∀ t ∈ gradient, Suits is k g t := by
  unfold GradCall.operand
  split
  · refine hx.bind fun t => .pure fun g ht t' ht' => ?_
    rw [Option.mem_def, Option.some.injEq] at ht'
    exact ht' ▸ ht
  · exact .pure fun g _ t ht => nomatch ht

/-- An op is added whose result has the shape of an operand. -/
theorem emit_suits {kind : OpKind} {inputs : List TensorId} {i : TensorInfo} (hk : is[k]? = some i)
    (h : ∀ {g infos info}, c.Faces is out g → P g → inputs.mapM g.info? = some infos → kind.infer infos = .ok info →
      info.shape = i.shape ∧ ∀ f i j, kind = .unaryGrad f → infos = [i, j] → j.shape = i.shape) :
    c.Shapes is out P (c.emit kind inputs) fun t g => Suits is k g t := by
  intro s t s' hfaces hP hrun
  obtain ⟨hfaces', hkeep, hstays, hshape⟩ := emit h s t s' hfaces hP hrun
  exact ⟨hfaces', hkeep, hstays, i, hk, hshape⟩

/-- A rule may rely on what is inferred for the op. -/
theorem assume {x : GradM α} (h : c.op.kind.infer is = .ok out → (∀ i ∈ is, i.shape.Sized) → c.Shapes is out P x Q) :
    c.Shapes is out P x Q :=
  fun s a s' hfaces => h hfaces.infers hfaces.sized s a s' hfaces

/-- Two calls one after the other: what the first one gives still suits its operand afterwards. -/
theorem both {γ : Type} {x : GradM (Option TensorId)} {y : GradM β} {f : Option TensorId → β → γ} {R : γ → Graph → Prop}
    (hx : c.Shapes is out P x fun gradient g => ∀ t ∈ gradient, Suits is k g t)
    (hy : c.Shapes is out (fun _ => True) y Q')
    (h : ∀ {a b g}, (∀ t ∈ a, Suits is k g t) → Q' b g → R (f a b) g) :
    c.Shapes is out P (x >>= fun a => y >>= fun b => pure (f a b)) R := by
  intro s r s' hfaces hP hrun
  obtain ⟨a, s₁, hrun₁, hrun⟩ := Stateful.run_bind_ok.1 hrun
  obtain ⟨b, s₂, hrun₂, hrun⟩ := Stateful.run_bind_ok.1 hrun
  cases hrun
  obtain ⟨hfaces₁, hkeep, hstays, ha⟩ := hx s a s₁ hfaces hP hrun₁
  obtain ⟨hfaces₂, hkeep', hstays', hb⟩ := hy s₁ b s' hfaces₁ trivial hrun₂
  refine ⟨hfaces₂, fun hi => hkeep' (hkeep hi), fun I hI hs => hstays' I hI (hstays I hI hs), h (fun t ht => ?_) hb⟩
  obtain ⟨i, hi, j, hj, hshape⟩ := ha t ht
  exact ⟨i, hi, j, hkeep' hj, hshape⟩

end Shapes

/-- The gradients for the operands from number `k` on have their shapes. -/
def SuitsFrom (is : List TensorInfo) (k : Nat) (gradients : List (Option TensorId)) (g : Graph) : Prop :=
  ∀ n t, gradients[n]? = some (some t) → Suits is (k + n) g t

theorem SuitsFrom.nil : SuitsFrom is k [] g := fun _ _ h => by simp at h

theorem SuitsFrom.cons {gradient : Option TensorId} {gradients : List (Option TensorId)}
    (h : ∀ t ∈ gradient, Suits is k g t) (hs : SuitsFrom is (k + 1) gradients g) :
    SuitsFrom is k (gradient :: gradients) g := by
  intro n t hn
  cases n with
  | zero =>
    rw [List.getElem?_cons_zero, Option.some.injEq] at hn
    exact h t hn
  | succ n =>
    rw [List.getElem?_cons_succ] at hn
    have hrest := hs n t hn
    rwa [Nat.add_assoc, Nat.add_comm 1] at hrest

theorem SuitsFrom.none {gradients : List (Option TensorId)} (hs : SuitsFrom is (k + 1) gradients g) :
    SuitsFrom is k (none :: gradients) g := .cons (fun _ ht => nomatch ht) hs

namespace Shapes

variable {P : Graph → Prop}

theorem single {x : GradM (Option TensorId)} (hx : c.Shapes is out P x fun gradient g => ∀ t ∈ gradient, Suits is 0 g t) :
    c.Shapes is out P (x >>= fun a => pure [a]) (SuitsFrom is 0) :=
  hx.bind fun _ => .pure fun _ ha => .cons ha .nil

theorem pair {x y : GradM (Option TensorId)} (hx : c.Shapes is out P x fun gradient g => ∀ t ∈ gradient, Suits is 0 g t)
    (hy : c.Shapes is out (fun _ => True) y fun gradient g => ∀ t ∈ gradient, Suits is 1 g t) :
    c.Shapes is out P (x >>= fun a => y >>= fun b => pure [a, b]) (SuitsFrom is 0) :=
  hx.both hy fun ha hb => .cons ha (.cons hb .nil)

/-- The gradient for the only operand by one op. -/
theorem only {kind : OpKind} {inputs : List TensorId} {i : TensorInfo} (hk : is[0]? = some i)
    (h : ∀ {g infos info}, c.Faces is out g → inputs.mapM g.info? = some infos → kind.infer infos = .ok info →
      info.shape = i.shape ∧ ∀ f i j, kind = .unaryGrad f → infos = [i, j] → j.shape = i.shape) :
    c.Shapes is out P (c.only kind inputs) (SuitsFrom is 0) :=
  single (operand (emit_suits hk fun hfaces _ => h hfaces))

/-- The gradient for an operand that was stretched. -/
theorem summed : c.Shapes is out P (c.summed k) fun gradient g => ∀ t ∈ gradient, Suits is k g t := by
  refine operand (askShape fun i hi => emit_suits hi fun _ _ _ hinfer => ⟨?_, nofun⟩)
  obtain ⟨x, -, rfl⟩ := infer_reduceToShape hinfer
  rfl

end Shapes

end GradCall

/-! ## Rules -/

/-- The gradients that a rule gives for ops of a kind have the shapes of the operands. -/
def GradRule.Suited (kind : OpKind) (rule : GradRule) : Prop := ∀ (c : GradCall) is out, c.op.kind = kind →
  c.Shapes is out (fun _ => True) (rule c) (GradCall.SuitsFrom is 0)

namespace GradRule

open GradCall

theorem suited_unary {f : Unary} {rule : GradRule} (h : unary? f = some rule) : rule.Suited (.unary f) := by
  intro c is out hkind
  refine .assume fun hinfer _ => ?_
  rw [hkind] at hinfer
  obtain rfl := infer_unary hinfer
  have hfirst : [out][0]? = some out := rfl
  -- the operand and the result have the same info
  have hinput : ∀ {g x}, c.Faces [out] out g → c.op.input 0 = .ok x → g.info? x = some out := fun hfaces hx =>
    hfaces.info_input hx
  have hgrad : ∀ {g x infos info} {fg : UnaryGrad}, c.Faces [out] out g → g.info? x = some out →
      [c.incoming, x].mapM g.info? = some infos → (OpKind.unaryGrad fg).infer infos = .ok info → info.shape = out.shape ∧
        ∀ f' i j, OpKind.unaryGrad fg = .unaryGrad f' → infos = [i, j] → j.shape = i.shape := by
    intro g x infos info fg hfaces hx hinfos hinfer
    obtain ⟨j, i, rfl, hj, hi⟩ := hfaces.infos_two hinfos
    cases hx.symm.trans hi
    obtain ⟨b, hb⟩ := infer_unaryGrad hinfer
    cases hb
    refine ⟨hj, fun f' i' j' _ hij => ?_⟩
    cases hij
    exact hj.symm
  cases f with
  | sign | ceil | floor => cases h
  | neg | scale factor =>
    cases h
    refine .only hfirst fun hfaces hinfos hinfer => ⟨?_, nofun⟩
    obtain ⟨j, rfl, hj⟩ := hfaces.infos_one hinfos
    cases infer_unary hinfer
    exact hj
  | reciprocal | clip min max =>
    cases h
    exact .ask fun x hx => .only hfirst fun hfaces => hgrad hfaces (hinput hfaces hx)
  | sqrt | exp | relu | sigmoid | tanh =>
    cases h
    exact .ask fun y hy => .only hfirst fun hfaces => hgrad hfaces (hfaces.output hy)
  | log =>
    cases h
    refine .ask fun x hx => .only hfirst fun hfaces hinfos hinfer => ⟨?_, nofun⟩
    obtain ⟨j, i, rfl, hj, hi⟩ := hfaces.infos_two hinfos
    cases (hinput hfaces hx).symm.trans hi
    rw [infer_binary_same hinfer hj.symm, hj]
  | square =>
    cases h
    refine .ask fun x hx => .single (.operand (.bind (.emit (d := out.shape) ?_) fun product => .emit_suits hfirst ?_))
    · intro g infos info hfaces _ hinfos hinfer
      obtain ⟨j, i, rfl, hj, hi⟩ := hfaces.infos_two hinfos
      cases (hinput hfaces hx).symm.trans hi
      exact ⟨by rw [infer_binary_same hinfer hj.symm, hj], nofun⟩
    · intro g infos info _ hproduct hinfos hinfer
      obtain ⟨i, hi, hshape⟩ := hproduct
      cases infer_unary hinfer
      cases hi.symm.trans (infos_single hinfos)
      exact ⟨hshape, nofun⟩
  | abs =>
    cases h
    refine .ask fun x hx => .single (.operand (.bind (.emit (d := out.shape) ?_) fun sign => .emit_suits hfirst ?_))
    · intro g infos info hfaces _ hinfos hinfer
      cases infer_unary hinfer
      cases (hinput hfaces hx).symm.trans (infos_single hinfos)
      exact ⟨rfl, nofun⟩
    · intro g infos info hfaces hsign hinfos hinfer
      obtain ⟨i, hi, hshape⟩ := hsign
      obtain ⟨j, i', rfl, hj, hi'⟩ := hfaces.infos_two hinfos
      cases hi.symm.trans hi'
      exact ⟨by rw [infer_binary_same hinfer (hshape.trans hj.symm), hj], nofun⟩

theorem suited_binary (f : Binary) : (binary f).Suited (.binary f) := by
  intro c is out hkind
  refine .assume fun hinfer _ => ?_
  rw [hkind] at hinfer
  obtain ⟨a, b, -, rfl, -, -⟩ := infer_binary hinfer
  have hgrad : ∀ {k : Nat} {i : TensorInfo} {fg : OperandGrad} {P : Graph → Prop} {inputs : List TensorId},
      [a, b][k]? = some i → c.Shapes [a, b] out P (c.emit (.operandGrad fg i.shape) inputs) fun t g => Suits [a, b] k g t := by
    intro k i fg P inputs hk
    refine .emit_suits hk fun _ _ _ hinfer => ⟨?_, nofun⟩
    obtain ⟨x, rest, -, rfl⟩ := infer_operandGrad hinfer
    rfl
  cases f with
  | add => exact .pair .summed .summed
  | sub => exact .pair .summed (.operand (.askShape fun _ hi => hgrad hi))
  | mul =>
    refine .pair (.operand ?_) (.operand ?_)
    · exact .askShape fun _ hi => .ask fun _ _ => hgrad hi
    · exact .askShape fun _ hi => .ask fun _ _ => hgrad hi
  | div =>
    refine .ask fun _ _ => .ask fun _ _ => .pair (.operand ?_) (.operand ?_)
    · exact .askShape fun _ hi => hgrad hi
    · exact .askShape fun _ hi => hgrad hi

/-- The transpose of a matrix. -/
theorem infer_transpose_matrix {i info : TensorInfo} {m n : Int} (h : (OpKind.transpose [1, 0]).infer [i] = .ok info)
    (hi : i.shape = [m, n]) : info.shape = [n, m] := by
  obtain ⟨x, s, hx, hs, rfl⟩ := infer_transpose h
  cases hx
  rw [hi] at hs
  cases hs
  rfl

theorem suited_matMul : matMul.Suited .matMul := by
  intro c is out hkind
  refine .assume fun hinfer _ => ?_
  rw [hkind] at hinfer
  obtain ⟨a, b, m, k, n, rfl, ha, hb, rfl⟩ := infer_matMul hinfer
  refine .ask fun x hx => .ask fun y hy => .pair (.operand ?_) (.operand ?_)
  · refine .bind (.emit (d := [n, k]) fun hfaces _ hinfos hinfer => ⟨?_, nofun⟩) fun turned =>
      .emit_suits (i := a) rfl fun hfaces hturned hinfos hinfer => ⟨?_, nofun⟩
    · obtain ⟨i, s, rfl, -, rfl⟩ := infer_transpose hinfer
      cases (hfaces.info_input hy).symm.trans (infos_single hinfos)
      exact infer_transpose_matrix hinfer hb
    · obtain ⟨i, hi, hshape⟩ := hturned
      obtain ⟨j, i', rfl, hj, hi'⟩ := hfaces.infos_two hinfos
      cases hi.symm.trans hi'
      obtain ⟨a', b', m', k', n', hab, ha', hb', rfl⟩ := infer_matMul hinfer
      cases hab
      cases ha'.symm.trans hj
      cases hb'.symm.trans hshape
      exact ha.symm
  · refine .bind (.emit (d := [k, m]) fun hfaces _ hinfos hinfer => ⟨?_, nofun⟩) fun turned =>
      .emit_suits (i := b) rfl fun hfaces hturned hinfos hinfer => ⟨?_, nofun⟩
    · obtain ⟨i, s, rfl, -, rfl⟩ := infer_transpose hinfer
      cases (hfaces.info_input hx).symm.trans (infos_single hinfos)
      exact infer_transpose_matrix hinfer ha
    · obtain ⟨i, hi, hshape⟩ := hturned
      obtain ⟨j, hj, hjs⟩ := hfaces.incoming
      obtain ⟨a', b', m', k', n', rfl, ha', hb', rfl⟩ := infer_matMul hinfer
      obtain ⟨i', _, hi', hrest, heq⟩ := List.forall₂_cons_left_iff.1 (mapM_eq_some_iff.1 hinfos)
      cases heq
      cases hi.symm.trans hi'
      cases hj.symm.trans (infos_single (mapM_eq_some_iff.2 hrest))
      cases ha'.symm.trans hshape
      cases hb'.symm.trans hjs
      exact hb.symm

theorem suited_sum : sum.Suited .sum := by
  intro c is out _
  have hfrom : ∀ count k, c.Shapes is out (fun _ => True) ((List.range' k count).mapM c.summed) (SuitsFrom is k) := by
    intro count
    induction count with
    | zero => exact fun k => .pure fun _ _ => .nil
    | succ count ih =>
      intro k
      rw [List.range'_succ, List.mapM_cons]
      exact .both .summed (ih (k + 1)) .cons
  unfold sum
  rw [List.range_eq_range']
  exact hfrom _ 0

theorem suited_reduceSum (axes : Option (List Int)) (keepDims : Bool) :
    (reduceSum axes keepDims).Suited (.reduceSum axes keepDims) := by
  intro c is out _
  refine .askShape fun i hi => ?_
  have hgrad : ∀ dropped : List Nat, c.Shapes is out (fun _ => True)
      (c.only (.reduceSumGrad i.shape (dropped.map Int.ofNat)) [c.incoming]) (SuitsFrom is 0) := by
    refine fun dropped => .only hi fun _ _ hinfer => ⟨?_, nofun⟩
    obtain ⟨x, -, hinfer⟩ := Outcome.bind_eq_ok.1 hinfer
    cases hinfer
    rfl
  cases keepDims with
  | true => exact .bind (.pure fun _ => id) hgrad
  | false => exact .ask fun dropped _ => hgrad dropped

theorem suited_transpose (perm : List Int) : (transpose perm).Suited (.transpose perm) := by
  intro c is out hkind
  refine .assume fun hinfer _ => ?_
  rw [hkind] at hinfer
  obtain ⟨x, s, rfl, hs, rfl⟩ := infer_transpose hinfer
  refine .only (i := x) rfl fun hfaces hinfos hinfer => ⟨?_, nofun⟩
  obtain ⟨j, rfl, hj⟩ := hfaces.infos_one hinfos
  obtain ⟨x', s', hx', hs', rfl⟩ := infer_transpose hinfer
  cases hx'
  rw [hj] at hs'
  exact transposedShape_inverse hs hs'

theorem suited_slice (starts ends axes : List Int) : (slice starts ends axes).Suited (.slice starts ends axes) := by
  intro c is out hkind
  refine .assume fun hinfer _ => ?_
  rw [hkind] at hinfer
  obtain ⟨x, ranges, rfl, hranges, rfl⟩ := infer_slice hinfer
  refine .askShape fun i hi => .ask fun ranges' hranges' => .only hi fun hfaces hinfos hinfer => ⟨?_, nofun⟩
  cases hi
  cases hranges.symm.trans hranges'
  obtain ⟨j, rfl, hj⟩ := hfaces.infos_one hinfos
  obtain ⟨x', s', hx', hs', rfl⟩ := infer_pad hinfer
  cases hx'
  rw [hj] at hs'
  exact paddedShape_slicePads hranges hs'

theorem suited_pad (pads : List Int) (value : Single) : (pad pads).Suited (.pad pads value) := by
  intro c is out hkind
  refine .assume fun hinfer hsized => ?_
  rw [hkind] at hinfer
  obtain ⟨x, s, rfl, hs, rfl⟩ := infer_pad hinfer
  refine .askShape fun i hi => ?_
  cases hi
  have hcut : c.Shapes [x] (x.withShape s) (fun _ => True) (do
      let starts := pads.take x.shape.length
      let ends ← Stateful.lift ((List.zipWith (· + ·) starts x.shape).mapM Word.int)
      c.only (.slice starts ends ((List.range x.shape.length).map Int.ofNat)) [c.incoming]) (SuitsFrom [x] 0) := by
    refine .ask fun ends hends => .only (i := x) rfl fun hfaces hinfos hinfer => ⟨?_, nofun⟩
    obtain ⟨j, rfl, hj⟩ := hfaces.infos_one hinfos
    obtain ⟨x', ranges, hx', hranges, rfl⟩ := infer_slice hinfer
    cases hx'
    rw [hj] at hranges ⊢
    exact slicedShape_between (hsized x (List.mem_singleton_self x)) hs hends hranges
  by_cases hlen : pads.length < x.shape.length
  · simp only [hlen, if_true]
    exact .ask fun _ _ => hcut
  · simp only [hlen, if_false]
    exact hcut

/-- Extents along an axis are no less than zero where those of the infos are. -/
theorem nonneg_of_lies {first : TensorInfo} {a : Nat} {l : List TensorInfo} {ds : List Int}
    (hsized : ∀ i ∈ l, ∀ d ∈ i.shape, 0 ≤ d) (h : List.Forall₂ (Lies first a) l ds) : ∀ d ∈ ds, 0 ≤ d := by
  intro d hd
  obtain ⟨i, hi, hlies⟩ := exists_of_forall₂ h.flip d hd
  exact hsized i hi d (List.mem_of_getElem? hlies.extent)

/-- By induction on the operands that are left: their extents and the offset together make the whole extent. -/
theorem shapes_concatFrom {c : GradCall} {out first : TensorInfo} {rest : List TensorInfo} {a : Nat} {total : Int}
    (hsized : ∀ i ∈ first :: rest, ∀ d ∈ i.shape, 0 ≤ d) (htotal : out.shape = first.shape.set a total) (count : Nat) :
    ∀ k offset ds, List.Forall₂ (Lies first a) ((first :: rest).drop k) ds → 0 ≤ offset → offset + ds.sum = total →
      c.Shapes (first :: rest) out (fun _ => True) (concatFrom c a count k offset) (SuitsFrom (first :: rest) k) := by
  induction count with
  | zero => exact fun k offset ds _ _ _ => .pure fun _ _ => .nil
  | succ count ih =>
    intro k offset ds hds hoffset hsum
    refine .askShape fun i hi => .ask fun extent hextent => .ask fun stop hstop => ?_
    obtain ⟨-, rfl⟩ := Word.int_eq_ok_iff.1 hstop
    rw [Outcome.promised_eq_ok] at hextent
    have hk := (List.getElem?_eq_some_iff.1 hi).1
    rw [List.drop_eq_getElem_cons hk] at hds
    obtain ⟨d, ds', hd, hds', rfl⟩ := List.forall₂_cons_left_iff.1 hds
    obtain rfl : (first :: rest)[k] = i := (List.getElem?_eq_some_iff.1 hi).2
    obtain rfl : d = extent := Option.some.inj (hd.extent.symm.trans hextent)
    have hnonneg := hsized _ (List.getElem_mem hk) d (List.mem_of_getElem? hextent)
    have hpos := List.sum_nonneg (nonneg_of_lies (fun i hi => hsized i (List.mem_of_mem_drop hi)) hds')
    rw [List.sum_cons] at hsum
    refine .both (.operand (.emit_suits hi fun hfaces _ hinfos hinfer => ⟨?_, nofun⟩))
      (ih (k + 1) (offset + d) ds' hds' (by omega) (by omega)) .cons
    obtain ⟨j, rfl, hj⟩ := hfaces.infos_one hinfos
    obtain ⟨x, ranges, hx, hranges, rfl⟩ := infer_slice hinfer
    cases hx
    exact slicedShape_place hd hnonneg hoffset (by omega) (hj.trans htotal) hranges

theorem suited_concat (axis : Int) : (concat axis).Suited (.concat axis) := by
  intro c is out hkind
  refine .assume fun hinfer hsized => ?_
  rw [hkind] at hinfer
  obtain ⟨first, rest, a, rfl, ha, hall⟩ := infer_concat hinfer
  refine .askShape fun i hi => .ask fun resolved hresolved => ?_
  cases hi
  cases ha.symm.trans hresolved
  match hlen : c.op.inputs.length with
  | 0 => exact .pure fun _ _ => .nil
  | count + 1 =>
    cases hd : first.shape[a]? with
    | none =>
      -- a scalar has no extent to take, and the call aborts
      refine .askShape fun i hi => .ask fun extent hextent => ?_
      cases hi
      rw [hd] at hextent
      cases hextent
    | some d =>
      obtain ⟨ds, hds, htotal⟩ := hall d hd
      refine shapes_concatFrom hsized htotal (count + 1) 0 0 (d :: ds) (.cons (lies_self hd) hds) (Int.le_refl 0) ?_
      rw [List.sum_cons]
      omega

theorem suited_gather (axis : Int) : (gather axis).Suited (.gather axis) := by
  intro c is out _
  refine .askShape fun i hi => .ask fun indices _ => ?_
  refine .bind (.operand (.emit_suits hi fun _ _ _ hinfer => ⟨?_, nofun⟩)) fun a =>
    .pure fun _ ha => .cons ha (.none .nil)
  obtain ⟨⟨g, x⟩, -, hinfer⟩ := Outcome.bind_eq_ok.1 hinfer
  obtain ⟨_, -, hinfer⟩ := Outcome.bind_eq_ok.1 hinfer
  cases hinfer
  rfl

theorem suited_scatter (axis : Int) : (scatter axis).Suited (.scatter axis) := by
  intro c is out hkind
  refine .assume fun hinfer _ => ?_
  rw [hkind] at hinfer
  obtain ⟨indices, updates, rfl, hshapes⟩ := infer_scatter hinfer
  refine .ask fun x hx => .both (.operand (.emit_suits (i := out) rfl fun hfaces _ hinfos hinfer => ⟨?_, nofun⟩))
    (.operand (k := 2) (.emit_suits (i := updates) rfl fun hfaces _ hinfos hinfer => ⟨?_, nofun⟩))
    fun ha hb => .cons ha (.none (.cons hb .nil))
  · obtain ⟨j, i, rfl, hj, -⟩ := hfaces.infos_two hinfos
    obtain ⟨⟨g, y⟩, hgy, hinfer⟩ := Outcome.bind_eq_ok.1 hinfer
    obtain ⟨_, -, hinfer⟩ := Outcome.bind_eq_ok.1 hinfer
    cases hinfer
    cases operand2_ok hgy
    exact hj
  · obtain ⟨j, i, rfl, -, hi⟩ := hfaces.infos_two hinfos
    cases (hfaces.info_input hx).symm.trans hi
    obtain ⟨⟨g, y⟩, hgy, hinfer⟩ := Outcome.bind_eq_ok.1 hinfer
    obtain ⟨_, -, hinfer⟩ := Outcome.bind_eq_ok.1 hinfer
    cases hinfer
    cases operand2_ok hgy
    exact hshapes

/-- The rules for kinds give gradients of the right shapes. -/
theorem suited_ofKind {kind : OpKind} {rule : GradRule} (h : ofKind? kind = some rule) : rule.Suited kind := by
  unfold ofKind? at h
  split at h
  · cases h
    intro c is out hkind
    refine .assume fun hinfer _ => ?_
    rw [hkind] at hinfer
    obtain rfl := infer_identity hinfer
    refine .only (i := out) rfl fun hfaces hinfos hinfer => ⟨?_, nofun⟩
    obtain ⟨j, rfl, hj⟩ := hfaces.infos_one hinfos
    cases infer_identity hinfer
    exact hj
  · exact suited_unary h
  · cases h
    intro c is out hkind
    refine .assume fun hinfer _ => ?_
    rw [hkind] at hinfer
    obtain rfl := infer_softmax hinfer
    refine .ask fun y hy => .only (i := out) rfl fun hfaces hinfos hinfer => ⟨?_, nofun⟩
    obtain ⟨j, i, rfl, hj, -⟩ := hfaces.infos_two hinfos
    obtain ⟨⟨g, x⟩, hgx, hinfer⟩ := Outcome.bind_eq_ok.1 hinfer
    cases hinfer
    cases operand2_ok hgx
    exact hj
  · cases h
    exact suited_binary _
  · cases h
    exact suited_matMul
  · cases h
    exact suited_sum
  · cases h
    exact suited_reduceSum _ _
  · cases h
    refine fun c is out _ => .askShape fun i hi => .only hi fun _ _ hinfer => ⟨?_, nofun⟩
    obtain ⟨-, x, -, rfl⟩ := infer_reshape hinfer
    rfl
  · cases h
    exact suited_transpose _
  · cases h
    exact suited_slice _ _ _
  · cases h
    exact suited_pad _ _
  · cases h
    exact suited_concat _
  · cases h
    exact suited_gather _
  · cases h
    exact suited_scatter _
  · cases h

end GradRule

end TensorGraph
