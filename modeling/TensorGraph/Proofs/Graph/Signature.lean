import TensorGraph.Proofs.Graph.Order
import TensorGraph.Proofs.Wire.Kinds

/-!
What the bytes of a fingerprint tell. They are a row of frames: three for each op, in the order in which the ops run,
then two for each tensor, or three for a constant. Nowhere is it written how many ops there are, but the second frame of
an op, with its operands and results, is never that of a tensor, with its info: if it were, the number of the operands
would be so large that the frame could not hold them. So the same bytes mean the same ops and the same tensors, up to
what is not among the bytes.
-/
namespace TensorGraph

namespace Hash

theorem frame_append_inj {a b rest rest' : Bytes} (ha : a.length < Word.limit) (hb : b.length < Word.limit)
    (h : frame a ++ rest = frame b ++ rest') : a = b ∧ rest = rest' := by
  rw [frame, frame, List.append_assoc, List.append_assoc] at h
  obtain ⟨hlen, h⟩ := LawfulWire.put_append_inj ha hb h
  exact List.append_inj h hlen

/-- A row of frames is told by its bytes. -/
theorem flatMap_frame_inj : ∀ {l m : List Bytes}, (∀ a ∈ l, a.length < Word.limit) → (∀ b ∈ m, b.length < Word.limit) →
    l.flatMap frame = m.flatMap frame → l = m
  | [], [], _, _, _ => rfl
  | [], b :: m, _, _, h => by
    have hlen := congrArg List.length h
    simp only [List.flatMap_cons, frame, List.length_append, put, Wire.length_little, List.flatMap_nil,
      List.length_nil] at hlen
    omega
  | a :: l, [], _, _, h => by
    have hlen := congrArg List.length h
    simp only [List.flatMap_cons, frame, List.length_append, put, Wire.length_little, List.flatMap_nil,
      List.length_nil] at hlen
    omega
  | a :: l, b :: m, hl, hm, h => by
    rw [List.flatMap_cons, List.flatMap_cons] at h
    obtain ⟨hab, hrest⟩ := frame_append_inj (hl a (by simp)) (hm b (by simp)) h
    rw [hab, flatMap_frame_inj (fun c hc => hl c (List.mem_cons_of_mem a hc))
      (fun c hc => hm c (List.mem_cons_of_mem b hc)) hrest]

end Hash

namespace Wire

theorem take_little (m n k : Nat) : (little (m + n) k).take m = little m k := by
  induction m generalizing k with
  | zero => rfl
  | succ m ih => rw [Nat.succ_add, little, List.take_succ_cons, ih, little]

theorem ofLittle_append (a b : Bytes) : ofLittle (a ++ b) = ofLittle a + 256 ^ a.length * ofLittle b := by
  induction a with
  | nil => simp [ofLittle]
  | cons c a ih =>
    rw [List.cons_append, ofLittle, ofLittle, ih, List.length_cons, pow_succ]
    ring

theorem length_put_shape (shape : List Int) : (put shape).length = 8 + 8 * shape.length := by
  have hitems : (shape.flatMap put).length = 8 * shape.length := by
    induction shape with
    | nil => rfl
    | cons n shape ih =>
      have hword : (put n).length = 8 := length_little ..
      rw [List.flatMap_cons, List.length_append, ih, List.length_cons, hword]
      omega
  change (little 8 shape.length ++ shape.flatMap put).length = _
  rw [List.length_append, length_little, hitems]

theorem le_length_put_names (names : List TensorId) : 8 + 8 * names.length ≤ (put names).length := by
  have hitems : 8 * names.length ≤ (names.flatMap put).length := by
    induction names with
    | nil => exact Nat.le_refl _
    | cons name names ih =>
      rw [List.flatMap_cons, List.length_append, List.length_cons]
      change _ ≤ (little 8 _ ++ _).length + _
      rw [List.length_append, length_little]
      omega
  change _ ≤ (little 8 names.length ++ names.flatMap put).length
  rw [List.length_append, length_little]
  omega

end Wire

namespace Graph

/-! ## Ops and tensors are told apart -/

/-- Operands, results and phase are never the bytes of an info and a type. The first word counts the operands, or else
it is the number of the element type and the low half of the rank. -/
theorem put_ends_ne_put_info {inputs outputs : List TensorId} {phase : Phase} {info : TensorInfo} {type : TensorType}
    (hinputs : Fits inputs) (hrank : info.shape.length < 2 ^ 32) : put (inputs, outputs, phase) ≠ put (info, type) := by
  intro h
  have hinfo : put (info, type) = Wire.little 4 (DType.all.idxOf info.dtype) ++ (put info.shape ++ put type) := by
    rw [Wire.put_pair, ← List.append_assoc]
    rfl
  have hends : put (inputs, outputs, phase) = put inputs ++ put (outputs, phase) := rfl
  have hlen : 20 + 8 * inputs.length ≤ 16 + 8 * info.shape.length := by
    have hlen := congrArg List.length h
    rw [hends, hinfo, Wire.put_pair, List.length_append, List.length_append, List.length_append, List.length_append,
      Wire.length_little, Wire.length_put_shape] at hlen
    have htype : (put type).length = 4 := Wire.length_little ..
    have hphase : (put phase).length = 4 := Wire.length_little ..
    have hin := Wire.le_length_put_names inputs
    have hout := Wire.le_length_put_names outputs
    omega
  have hcount : inputs.length = DType.all.idxOf info.dtype + 2 ^ 32 * info.shape.length := by
    have hword := congrArg (fun bytes => Wire.ofLittle (bytes.take 8)) h
    have hleft : (put (inputs, outputs, phase)).take 8 = Wire.little 8 inputs.length := by
      rw [hends]
      change (Wire.little 8 inputs.length ++ _ ++ _).take 8 = _
      rw [List.append_assoc, List.take_left' (Wire.length_little ..)]
    have hright : (put (info, type)).take 8 =
        Wire.little 4 (DType.all.idxOf info.dtype) ++ Wire.little 4 info.shape.length := by
      rw [hinfo, List.take_append, Wire.length_little, List.take_of_length_le (by rw [Wire.length_little]; decide)]
      change _ ++ List.take 4 (Wire.little 8 info.shape.length ++ _ ++ _) = _
      rw [List.append_assoc, List.take_append_of_le_length (by rw [Wire.length_little]; decide), Wire.take_little 4 4]
    have hdtype : DType.all.idxOf info.dtype < 256 ^ 4 := List.idxOf_le_length.trans_lt (by decide)
    simp only [hleft, hright, Wire.ofLittle_append, Wire.length_little] at hword
    rwa [Wire.ofLittle_little hinputs.1, Wire.ofLittle_little hdtype, Wire.ofLittle_little hrank] at hword
  omega

end Graph

/-- Whether the words of the format hold a value, and the length of its bytes. -/
def Framable {α : Type} [Wire α] [LawfulWire α] (a : α) : Prop := Fits a ∧ (put a).length < Word.limit

namespace Op

/-- Whether the words of the format hold what the fingerprint takes of an op. -/
structure Encodable (op : Op) : Prop where
  kind : Framable op.kind
  ends : Framable (op.inputs, op.outputs, op.phase)
  place : Framable (op.virtualGraph, op.inPlace)

/-- Ops that differ at most in what the fingerprint leaves out. -/
structure Alike (op op' : Op) : Prop where
  kind : op.kind = op'.kind
  inputs : op.inputs = op'.inputs
  outputs : op.outputs = op'.outputs
  phase : op.phase = op'.phase
  virtualGraph : op.virtualGraph = op'.virtualGraph
  inPlace : op.inPlace = op'.inPlace

theorem Alike.symm {op op' : Op} (h : op.Alike op') : op'.Alike op :=
  ⟨h.kind.symm, h.inputs.symm, h.outputs.symm, h.phase.symm, h.virtualGraph.symm, h.inPlace.symm⟩

/-- The frames of an op. -/
def frames (op : Op) : List Bytes :=
  [put op.kind, put (op.inputs, op.outputs, op.phase), put (op.virtualGraph, op.inPlace)]

theorem length_lt_of_mem_frames {op : Op} (h : op.Encodable) {a : Bytes} (ha : a ∈ op.frames) :
    a.length < Word.limit := by
  simp only [frames, List.mem_cons, List.not_mem_nil, or_false] at ha
  rcases ha with rfl | rfl | rfl
  · exact h.kind.2
  · exact h.ends.2
  · exact h.place.2

theorem alike_of_frames {op op' : Op} (h : op.Encodable) (h' : op'.Encodable) {rest rest' : List Bytes}
    (heq : op.frames ++ rest = op'.frames ++ rest') : op.Alike op' ∧ rest = rest' := by
  simp only [frames, List.cons_append, List.nil_append, List.cons.injEq] at heq
  obtain ⟨hkind, hends, hplace, hrest⟩ := heq
  have hkind := LawfulWire.put_inj h.kind.1 h'.kind.1 hkind
  have hends := LawfulWire.put_inj h.ends.1 h'.ends.1 hends
  have hplace := LawfulWire.put_inj h.place.1 h'.place.1 hplace
  simp only [Prod.mk.injEq] at hends hplace
  exact ⟨⟨hkind, hends.1, hends.2.1, hends.2.2, hplace.1, hplace.2⟩, hrest⟩

end Op

namespace Tensor

/-- Whether the words of the format hold what the fingerprint takes of a tensor, and its rank fits half a word. -/
structure Encodable (t : Tensor) : Prop where
  id : Fits t.id
  info : Framable (t.info, t.type)
  data : t.type = .const → Framable t.data
  rank : t.info.shape.length < 2 ^ 32

/-- Tensors that differ at most in what the fingerprint leaves out. -/
structure Alike (t t' : Tensor) : Prop where
  id : t.id = t'.id
  info : t.info = t'.info
  type : t.type = t'.type
  data : t.type = .const → t.data = t'.data

theorem alike_symm {ts ts' : List Tensor} (h : List.Forall₂ Alike ts ts') : List.Forall₂ Alike ts' ts :=
  h.flip.imp fun _ _ ht => ⟨ht.id.symm, ht.info.symm, ht.type.symm, fun hc => (ht.data (ht.type.trans hc)).symm⟩

/-- The frames of a tensor. -/
def frames (t : Tensor) : List Bytes :=
  t.id.toByteArray.data.toList :: put (t.info, t.type) :: if t.type = .const then [put t.data] else []

theorem length_lt_of_mem_frames {t : Tensor} (h : t.Encodable) {a : Bytes} (ha : a ∈ t.frames) :
    a.length < Word.limit := by
  simp only [frames, List.mem_cons] at ha
  rcases ha with rfl | rfl | ha
  · exact h.id
  · exact h.info.2
  · split at ha
    · rename_i hconst
      cases List.mem_singleton.1 ha
      exact (h.data hconst).2
    · cases ha

theorem alike_of_frames {t t' : Tensor} (h : t.Encodable) (h' : t'.Encodable) {rest rest' : List Bytes}
    (heq : t.frames ++ rest = t'.frames ++ rest') : t.Alike t' ∧ rest = rest' := by
  simp only [frames, List.cons_append, List.cons.injEq] at heq
  obtain ⟨hid, hinfo, heq⟩ := heq
  have hid : t.id = t'.id := by
    have hread := Wire.fromUTF8?_eq_some.2 hid
    rw [Wire.fromUTF8?_eq_some.2 rfl] at hread
    exact Option.some.inj hread
  have hinfo := LawfulWire.put_inj h.info.1 h'.info.1 hinfo
  simp only [Prod.mk.injEq] at hinfo
  by_cases hconst : t.type = .const
  · have hconst' : t'.type = .const := hinfo.2 ▸ hconst
    rw [if_pos hconst, if_pos hconst', List.singleton_append, List.singleton_append, List.cons.injEq] at heq
    exact ⟨⟨hid, hinfo.1, hinfo.2, fun _ => LawfulWire.put_inj (h.data hconst).1 (h'.data hconst').1 heq.1⟩, heq.2⟩
  · have hconst' : ¬ t'.type = .const := hinfo.2 ▸ hconst
    rw [if_neg hconst, if_neg hconst'] at heq
    exact ⟨⟨hid, hinfo.1, hinfo.2, fun hc => absurd hc hconst⟩, heq⟩

/-- No op has the frames of a tensor. -/
theorem frames_ne_frames {t : Tensor} (h : t.Encodable) {op : Op} (hop : op.Encodable) {rest rest' : List Bytes} :
    op.frames ++ rest ≠ t.frames ++ rest' := by
  intro heq
  simp only [frames, Op.frames, List.cons_append, List.cons.injEq] at heq
  exact Graph.put_ends_ne_put_info hop.ends.1.1 h.rank heq.2.1

end Tensor

namespace Graph

variable {g g' : Graph}

/-! ## Rows of frames -/

theorem tensors_alike_of_frames : ∀ {ts ts' : List Tensor}, (∀ t ∈ ts, t.Encodable) → (∀ t ∈ ts', t.Encodable) →
    ts.flatMap Tensor.frames = ts'.flatMap Tensor.frames → List.Forall₂ Tensor.Alike ts ts'
  | [], [], _, _, _ => .nil
  | [], _ :: _, _, _, h => by cases h
  | _ :: _, [], _, _, h => by cases h
  | t :: ts, t' :: ts', hts, hts', h => by
    rw [List.flatMap_cons, List.flatMap_cons] at h
    obtain ⟨halike, hrest⟩ := Tensor.alike_of_frames (hts t (by simp)) (hts' t' (by simp)) h
    exact .cons halike (tensors_alike_of_frames (fun u hu => hts u (List.mem_cons_of_mem t hu))
      (fun u hu => hts' u (List.mem_cons_of_mem t' hu)) hrest)

/-- Where one row goes on with an op, the other does not go on with a tensor. -/
theorem alike_of_frames : ∀ {ops ops' : List Op} {ts ts' : List Tensor}, (∀ op ∈ ops, op.Encodable) →
    (∀ op ∈ ops', op.Encodable) → (∀ t ∈ ts, t.Encodable) → (∀ t ∈ ts', t.Encodable) →
    ops.flatMap Op.frames ++ ts.flatMap Tensor.frames = ops'.flatMap Op.frames ++ ts'.flatMap Tensor.frames →
    List.Forall₂ Op.Alike ops ops' ∧ List.Forall₂ Tensor.Alike ts ts'
  | [], [], _, _, _, _, hts, hts', h => ⟨.nil, tensors_alike_of_frames hts hts' h⟩
  | op :: ops, [], _, [], _, _, _, _, h => by cases h
  | op :: ops, [], _, t' :: ts', hops, _, _, hts', h => by
    rw [List.flatMap_cons, List.append_assoc] at h
    exact absurd h (Tensor.frames_ne_frames (hts' t' (by simp)) (hops op (by simp)))
  | [], op' :: ops', [], _, _, _, _, _, h => by cases h
  | [], op' :: ops', t :: ts, _, _, hops', hts, _, h => by
    rw [List.flatMap_cons (x := op'), List.append_assoc] at h
    exact absurd h.symm (Tensor.frames_ne_frames (hts t (by simp)) (hops' op' (by simp)))
  | op :: ops, op' :: ops', ts, ts', hops, hops', hts, hts', h => by
    rw [List.flatMap_cons, List.flatMap_cons, List.append_assoc, List.append_assoc] at h
    obtain ⟨halike, hrest⟩ := Op.alike_of_frames (hops op (by simp)) (hops' op' (by simp)) h
    obtain ⟨hops, hts⟩ := alike_of_frames (fun o ho => hops o (List.mem_cons_of_mem op ho))
      (fun o ho => hops' o (List.mem_cons_of_mem op' ho)) hts hts' hrest
    exact ⟨.cons halike hops, hts⟩

/-! ## Graphs -/

/-- Whether the words of the format hold what the fingerprint takes of a graph. -/
structure Encodable (g : Graph) : Prop where
  ops : ∀ op ∈ g.ops.values, op.Encodable
  tensors : ∀ t ∈ g.tensors.values, t.Encodable

theorem signature_eq {ops : List Op} (h : g.orderedOps = .ok ops) :
    g.signature = .ok ((ops.flatMap Op.frames ++ g.tensors.values.flatMap Tensor.frames).flatMap Hash.frame) := by
  have hop : ∀ op : Op, opSignature op = op.frames.flatMap Hash.frame := by
    intro op
    simp [opSignature, Op.frames, Hash.frameValue]
  have htensor : ∀ t : Tensor, tensorSignature t = t.frames.flatMap Hash.frame := by
    intro t
    unfold tensorSignature Tensor.frames
    split <;> simp [Hash.frameText, Hash.frameValue]
  rw [signature, h, List.flatMap_append, List.flatMap_assoc, List.flatMap_assoc, ← funext hop, ← funext htensor]
  rfl

/-- Graphs of one signature have the same ops in the same order and the same tensors, up to what the fingerprint leaves
out. -/
theorem alike_of_signature {ops ops' : List Op} (hl : g.Linked) (hl' : g'.Linked) (he : g.Encodable)
    (he' : g'.Encodable) (hops : g.orderedOps = .ok ops) (hops' : g'.orderedOps = .ok ops')
    (h : g.signature = g'.signature) :
    List.Forall₂ Op.Alike ops ops' ∧ List.Forall₂ Tensor.Alike g.tensors.values g'.tensors.values := by
  have hmem : ∀ {g : Graph} {ops : List Op}, g.Linked → g.Encodable → g.orderedOps = .ok ops →
      ∀ op ∈ ops, op.Encodable := by
    intro g ops hl he hops op hop
    obtain ⟨l, hl', hops⟩ := Outcome.bind_eq_ok.1 hops
    cases hops
    exact he.ops op (((order_complete hl hl').perm_values hl).mem_iff.1 hop)
  have hshort : ∀ {g : Graph} {ops : List Op}, g.Linked → g.Encodable → g.orderedOps = .ok ops →
      ∀ a ∈ ops.flatMap Op.frames ++ g.tensors.values.flatMap Tensor.frames, a.length < Word.limit := by
    intro g ops hl he hops a ha
    rcases List.mem_append.1 ha with ha | ha
    · obtain ⟨op, hop, ha⟩ := List.mem_flatMap.1 ha
      exact Op.length_lt_of_mem_frames (hmem hl he hops op hop) ha
    · obtain ⟨t, ht, ha⟩ := List.mem_flatMap.1 ha
      exact Tensor.length_lt_of_mem_frames (he.tensors t ht) ha
  rw [signature_eq hops, signature_eq hops', Except.ok.injEq] at h
  have hframes := Hash.flatMap_frame_inj (hshort hl he hops) (hshort hl' he' hops') h
  exact alike_of_frames (hmem hl he hops) (hmem hl' he' hops') he.tensors he'.tensors hframes

end Graph

end TensorGraph
