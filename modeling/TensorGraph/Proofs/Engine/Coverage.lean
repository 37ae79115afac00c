import TensorGraph.Proofs.Engine.Compile
import TensorGraph.Proofs.Graph.Signature
import TensorGraph.Proofs.Graph.WellFormed

/-!
The fingerprint of a graph covers all that compilation reads, but for the names of ops and the order of the streams:
graphs with the same bytes to take the fingerprint of are compiled to the same program up to these.
-/
namespace TensorGraph

namespace CompiledOp

/-- The step without its name. -/
def unnamed (c : CompiledOp) : CompiledOp := { c with name := "" }

end CompiledOp

theorem Op.Alike.steps {op op' : Op} (h : op.Alike op') : op.StepsAlike op' :=
  ⟨h.kind, h.inputs, h.outputs, h.phase, h.inPlace⟩

namespace Executable

variable {g g' : Graph}

/-- Programs that differ at most in the names of their steps and in the order of their streams. -/
structure Alike (e e' : Executable) : Prop where
  graphHash : e.graphHash = e'.graphHash
  virtualGraphs : e.virtualGraphs = e'.virtualGraphs
  fragments : (e.fragments.map fun _ steps => steps.map CompiledOp.unnamed) =
    e'.fragments.map fun _ steps => steps.map CompiledOp.unnamed
  streams : e.streams.Perm e'.streams
  weights : e.weights = e'.weights
  optimizerStreams : e.optimizerStreams = e'.optimizerStreams
  constants : e.constants = e'.constants
  updates : e.updates = e'.updates
  infos : e.infos = e'.infos

/-! ## Steps -/

theorem updateOf_alike {op op' : Op} (h : op.Alike op') {u : Option (TensorId × TensorId)} (hu : updateOf op = .ok u) :
    updateOf op' = .ok u := by
  unfold updateOf at hu ⊢
  split at hu
  · rename_i hkind
    rw [if_pos (h.kind ▸ hkind)]
    obtain ⟨weight, hweight, hu⟩ := Outcome.bind_eq_ok.1 hu
    refine Outcome.bind_eq_ok.2 ⟨weight, ?_, ?_⟩
    · rw [Outcome.orFail_eq_ok, ← h.inputs]
      exact Outcome.orFail_eq_ok.1 hweight
    · rw [Op.output, ← h.outputs]
      exact hu
  · rename_i hkind
    rw [if_neg (h.kind ▸ hkind)]
    exact hu

theorem compileOp_alike {op op' : Op} (h : op.Alike op') (hinfo : g.info? = g'.info?)
    {step : CompiledOp × Option (TensorId × TensorId)} (hstep : compileOp g op = .ok step) :
    compileOp g' op' = .ok ({ step.1 with name := op'.name }, step.2) := by
  obtain ⟨infos, hinfos, hstep⟩ := Outcome.bind_eq_ok.1 hstep
  obtain ⟨u, hu, hstep⟩ := Outcome.bind_eq_ok.1 hstep
  cases hstep
  have hinfo' : g'.info = g.info := funext fun id => by rw [Graph.info, Graph.info, hinfo]
  refine Outcome.bind_eq_ok.2 ⟨infos, ?_, Outcome.bind_eq_ok.2 ⟨u, updateOf_alike h hu, ?_⟩⟩
  · rw [← h.outputs, hinfo']
    exact hinfos
  · rw [← h.kind, ← h.inputs, ← h.outputs, ← h.phase, ← h.virtualGraph, ← h.inPlace]
    rfl

theorem steps_alike {ops ops' : List Op} (h : List.Forall₂ Op.Alike ops ops') (hinfo : g.info? = g'.info?) :
    ∀ {steps}, ops.mapM (compileOp g) = .ok steps → ∃ steps', ops'.mapM (compileOp g') = .ok steps' ∧
      steps.map (Prod.map CompiledOp.unnamed id) = steps'.map (Prod.map CompiledOp.unnamed id) := by
  simp only [Outcome.mapM_eq_ok]
  induction h with
  | nil =>
    rintro _ ⟨⟩
    exact ⟨[], .nil, rfl⟩
  | cons hop _ ih =>
    rintro _ (_ | ⟨hstep, hsteps⟩)
    obtain ⟨steps', hsteps', heq⟩ := ih hsteps
    refine ⟨_ :: steps', .cons (compileOp_alike hop hinfo hstep) hsteps', ?_⟩
    rw [List.map_cons, List.map_cons, heq]
    rfl

/-- Dropping the names of steps and putting the steps into phases go together. -/
theorem map_foldl_addStep : ∀ (cs : List CompiledOp) (d : Dict Phase (List CompiledOp)),
    ((cs.foldl addStep d).map fun _ steps => steps.map CompiledOp.unnamed) =
      (cs.map CompiledOp.unnamed).foldl addStep (d.map fun _ steps => steps.map CompiledOp.unnamed)
  | [], _ => rfl
  | c :: cs, d => by
    have hstep : ((addStep d c).map fun _ steps => steps.map CompiledOp.unnamed) =
        addStep (d.map fun _ steps => steps.map CompiledOp.unnamed) c.unnamed := by
      refine Dict.ext_get? fun p => ?_
      rw [Dict.get?_map, addStep, addStep, Dict.get?_insert, Dict.get?_insert, Dict.get?_map, Dict.get?_map]
      by_cases hp : c.phase = p
      · subst hp
        cases hd : d.get? c.phase <;> simp [hd, CompiledOp.unnamed]
      · simp [hp, CompiledOp.unnamed]
    rw [List.foldl_cons, map_foldl_addStep cs, hstep, List.map_cons, List.foldl_cons]

/-! ## Tensors -/

theorem map_eq_of_alike {β : Type} {f : Tensor → β} (hf : ∀ {t t' : Tensor}, t.Alike t' → f t = f t')
    {ts ts' : List Tensor} (h : List.Forall₂ Tensor.Alike ts ts') : ts.map f = ts'.map f := by
  induction h with
  | nil => rfl
  | cons ht _ ih => rw [List.map_cons, List.map_cons, hf ht, ih]

theorem filter_alike {ts ts' : List Tensor} (h : List.Forall₂ Tensor.Alike ts ts') (type : TensorType) :
    List.Forall₂ Tensor.Alike (ts.filter (·.type = type)) (ts'.filter (·.type = type)) :=
  List.rel_filter (fun t t' ht => by simp [ht.type]) h

theorem constants_alike {ts ts' : List Tensor} (h : List.Forall₂ Tensor.Alike ts ts') (hc : ∀ t ∈ ts, t.type = .const) :
    ts.mapM constantOf = ts'.mapM constantOf := by
  induction h with
  | nil => rfl
  | cons ht _ ih =>
    have hhead : ∀ {t t' : Tensor}, t.Alike t' → t.type = .const → constantOf t = constantOf t' := by
      intro t t' ht hconst
      rw [constantOf, constantOf, ht.id, ht.data hconst]
    rw [List.mapM_cons, List.mapM_cons, hhead ht (hc _ (by simp)), ih fun t hmem => hc t (List.mem_cons_of_mem _ hmem)]

theorem tensor?_alike (hl : g.Linked) (hl' : g'.Linked)
    (h : List.Forall₂ Tensor.Alike g.tensors.values g'.tensors.values) {t : TensorId} {x : Tensor}
    (hx : g.tensor? t = some x) : ∃ x', g'.tensor? t = some x' ∧ x.Alike x' := by
  obtain ⟨x', hx', halike⟩ := exists_of_forall₂ h x (Dict.mem_values.2 ⟨t, hx⟩)
  obtain ⟨t', ht'⟩ := Dict.mem_values.1 hx'
  have hid : t' = t := (hl'.tensorId ht').symm.trans (halike.id.symm.trans (hl.tensorId hx))
  exact ⟨x', hid ▸ ht', halike⟩

theorem info?_alike (hl : g.Linked) (hl' : g'.Linked)
    (h : List.Forall₂ Tensor.Alike g.tensors.values g'.tensors.values) : g.info? = g'.info? := by
  funext t
  cases hx : g.tensor? t with
  | some x =>
    obtain ⟨x', hx', halike⟩ := tensor?_alike hl hl' h hx
    rw [Graph.info?, Graph.info?, hx, hx', Option.map_some, Option.map_some, halike.info]
  | none =>
    cases hx' : g'.tensor? t with
    | some x' =>
      obtain ⟨x, hx'', -⟩ := tensor?_alike hl' hl (Tensor.alike_symm h) hx'
      rw [hx] at hx''
      cases hx''
    | none => rw [Graph.info?, Graph.info?, hx, hx']

/-- A program of a graph is one of any other that gives the same bytes to take the fingerprint of. -/
theorem Compiled.alike {l l' : List OpId} {e : Executable} (h : Compiled g l e) (hl : g.Linked) (hl' : g'.Linked)
    (horder : g'.order = .ok l') (hops : List.Forall₂ Op.Alike (l.filterMap g.op?) (l'.filterMap g'.op?))
    (htensors : List.Forall₂ Tensor.Alike g.tensors.values g'.tensors.values) : Compiled g' l' e := by
  refine h.congr horder (hops.imp fun _ _ hop => hop.steps) (info?_alike hl hl' htensors) (fun hx hconst => ?_)
    fun hx' hconst => ?_
  · obtain ⟨x', hx', hsame⟩ := tensor?_alike hl hl' htensors hx
    exact ⟨x', hx', hsame.type ▸ hconst, (hsame.data hconst).symm⟩
  · obtain ⟨x, hx, hsame⟩ := tensor?_alike hl' hl (Tensor.alike_symm htensors) hx'
    exact ⟨x, hx, hsame.type ▸ hconst, (hsame.data hconst).symm⟩

end Executable

namespace Graph

variable {g g' : Graph}

/-- The list of streams names exactly the tensors that are streams. -/
def StreamsListed (g : Graph) : Prop := ∀ t, t ∈ g.streams ↔ ∃ x, g.tensor? t = some x ∧ x.type = .stream

theorem WellFormed.nodup_streams (h : g.WellFormed) (hs : g.StreamsListed) : g.streams.Nodup := by
  refine List.nodup_iff_count_le_one.2 fun t => ?_
  by_cases ht : t ∈ g.streams
  · obtain ⟨x, hx, hstream⟩ := (hs t).1 ht
    exact (h.streams hx hstream).le
  · rw [List.count_eq_zero_of_not_mem ht]
    exact Nat.zero_le 1

theorem streams_perm (hg : g.WellFormed) (hg' : g'.WellFormed) (hs : g.StreamsListed) (hs' : g'.StreamsListed)
    (h : List.Forall₂ Tensor.Alike g.tensors.values g'.tensors.values) : g.streams.Perm g'.streams := by
  refine (List.perm_ext_iff_of_nodup (hg.nodup_streams hs) (hg'.nodup_streams hs')).2 fun t => ?_
  rw [hs t, hs' t]
  constructor
  · rintro ⟨x, hx, hstream⟩
    obtain ⟨x', hx', halike⟩ := Executable.tensor?_alike hg.linked hg'.linked h hx
    exact ⟨x', hx', halike.type ▸ hstream⟩
  · rintro ⟨x', hx', hstream⟩
    obtain ⟨x, hx, halike⟩ := Executable.tensor?_alike hg'.linked hg.linked (Tensor.alike_symm h) hx'
    exact ⟨x, hx, halike.type ▸ hstream⟩

end Graph

namespace Executable

variable {g g' : Graph}

theorem compile_alike {ops ops' : List Op} (hg : g.WellFormed) (hg' : g'.WellFormed) (hs : g.StreamsListed)
    (hs' : g'.StreamsListed) (hops : g.orderedOps = .ok ops) (hops' : g'.orderedOps = .ok ops')
    (halike : List.Forall₂ Op.Alike ops ops')
    (htensors : List.Forall₂ Tensor.Alike g.tensors.values g'.tensors.values) {n : Nat} {hash : UInt64}
    {e : Executable} (h : compile g n hash = .ok e) : ∃ e', compile g' n hash = .ok e' ∧ e.Alike e' := by
  unfold compile at h ⊢
  obtain ⟨ordered, hordered, h⟩ := Outcome.bind_eq_ok.1 h
  obtain rfl : ops = ordered := Except.ok.inj (hops.symm.trans hordered)
  obtain ⟨steps, hsteps, h⟩ := Outcome.bind_eq_ok.1 h
  obtain ⟨constants, hconstants, h⟩ := Outcome.bind_eq_ok.1 h
  cases h
  have hinfo := info?_alike hg.linked hg'.linked htensors
  obtain ⟨steps', hsteps', hunnamed⟩ := steps_alike halike hinfo hsteps
  have hconstants' : (g'.tensors.values.filter (·.type = .const)).mapM constantOf = .ok constants := by
    rw [← hconstants]
    refine (constants_alike (filter_alike htensors .const) fun t ht => ?_).symm
    simpa using (List.mem_filter.1 ht).2
  have htyped : ∀ type, typed g type = typed g' type := fun type =>
    map_eq_of_alike (fun ht => by rw [ht.id, ht.info]) (filter_alike htensors type)
  refine ⟨_, Outcome.bind_eq_ok.2 ⟨ops', hops', Outcome.bind_eq_ok.2 ⟨steps', hsteps',
    Outcome.bind_eq_ok.2 ⟨constants, hconstants', rfl⟩⟩⟩, rfl, rfl, ?_, ?_, htyped .weight, htyped .optimizerStream,
    rfl, ?_, ?_⟩
  · have hnames := congrArg (List.map Prod.fst) hunnamed
    simp only [List.map_map] at hnames
    simp only [map_foldl_addStep, List.map_map]
    exact congrArg _ hnames
  · have hperm := (Graph.streams_perm hg hg' hs hs' htensors).filterMap
      fun id => (g.info? id).map fun info => (id, info)
    simpa only [hinfo] using hperm
  · have hupdates := congrArg (List.filterMap Prod.snd) hunnamed
    simp only [List.filterMap_map] at hupdates
    exact hupdates
  · refine Dict.ext_get? fun t => ?_
    rw [Dict.get?_map, Dict.get?_map]
    exact congrFun hinfo t

end Executable

namespace Graph

variable {g g' : Graph}

/-- The fingerprint covers what compilation reads. Of two graphs that give the same bytes to take the fingerprint of,
both are compiled or neither is, and the programs differ at most in the names of steps and the order of streams. -/
theorem signature_covers_compilation (hg : g.WellFormed) (hg' : g'.WellFormed) (ha : g.Acyclic) (ha' : g'.Acyclic)
    (he : g.Encodable) (he' : g'.Encodable) (hs : g.StreamsListed) (hs' : g'.StreamsListed)
    (h : g.signature = g'.signature) (virtualGraphs : Nat) (graphHash : UInt64) :
    (∃ e e', Executable.compile g virtualGraphs graphHash = .ok e ∧
        Executable.compile g' virtualGraphs graphHash = .ok e' ∧ e.Alike e') ∨
      (∃ f, Executable.compile g virtualGraphs graphHash = .error f) ∧
        ∃ f, Executable.compile g' virtualGraphs graphHash = .error f := by
  have hordered : ∀ {g : Graph}, g.WellFormed → g.Acyclic → ∃ ops, g.orderedOps = .ok ops := by
    intro g hg ha
    obtain ⟨l, hl⟩ := ha.order_ok hg.linked
    exact ⟨_, Outcome.bind_eq_ok.2 ⟨l, hl, rfl⟩⟩
  obtain ⟨ops, hops⟩ := hordered hg ha
  obtain ⟨ops', hops'⟩ := hordered hg' ha'
  obtain ⟨halike, htensors⟩ := alike_of_signature hg.linked hg'.linked he he' hops hops' h
  have hback : List.Forall₂ Op.Alike ops' ops := halike.flip.imp fun _ _ ho => ho.symm
  cases hcompile : Executable.compile g virtualGraphs graphHash with
  | ok e =>
    obtain ⟨e', he', hsame⟩ := Executable.compile_alike hg hg' hs hs' hops hops' halike htensors hcompile
    exact .inl ⟨e, e', rfl, he', hsame⟩
  | error f =>
    cases hcompile' : Executable.compile g' virtualGraphs graphHash with
    | ok e' =>
      obtain ⟨e, he, -⟩ :=
        Executable.compile_alike hg' hg hs' hs hops' hops hback (Tensor.alike_symm htensors) hcompile'
      rw [hcompile] at he
      cases he
    | error f' => exact .inr ⟨⟨f, rfl⟩, f', rfl⟩

/-! ### Streams in another order -/

/-- The sum of two streams, which were added in the given order, and a constant. -/
def sumCalls (first second : TensorId) : List Edit :=
  [.addTensor first ⟨.float, [1]⟩ .stream none, .addTensor second ⟨.float, [1]⟩ .stream none,
    .addConst "c" ⟨⟨.float, [1]⟩, .f32 [.one]⟩, .addOp .sum ["a", "b", "c"] ["y"] .forward]

/-- The graph that the calls make. -/
def sumGraph (first second : TensorId) : Graph :=
  (sumCalls first second).foldl (fun g e => (e.call.run g).2) Graph.empty

theorem sumGraph_sound (first second : TensorId) : (sumGraph first second).Sound := by
  have h : Edited Graph.empty (sumGraph first second) :=
    .call _ (.call _ (.call _ (.call _ .start trivial) trivial) trivial) trivial
  exact h.sound .empty

theorem sumGraph_encodable : (sumGraph "a" "b").Encodable := by
  have hops : (sumGraph "a" "b").ops.values =
      [⟨0, .sum, "y", ["a", "b", "c"], ["y"], .forward, none, false, .empty, none⟩] := by decide
  have htensors : (sumGraph "a" "b").tensors.values =
      [⟨"a", ⟨.float, [1]⟩, .stream, none, none, .ofList [0]⟩, ⟨"b", ⟨.float, [1]⟩, .stream, none, none, .ofList [0]⟩,
        ⟨"c", ⟨.float, [1]⟩, .const, some ⟨⟨.float, [1]⟩, .f32 [.one]⟩, none, .ofList [0]⟩,
        ⟨"y", ⟨.float, [1]⟩, .actGrad, none, some 0, .empty⟩] := by decide
  constructor
  · rw [hops]
    intro op hop
    cases List.mem_singleton.1 hop
    refine ⟨⟨?_, by decide⟩, ⟨?_, by decide⟩, ⟨?_, by decide⟩⟩ <;>
      simp +decide [Fits, OpKind.FieldsFit, or_imp, forall_and]
  · rw [htensors]
    intro t ht
    simp only [List.mem_cons, List.not_mem_nil, or_false] at ht
    rcases ht with rfl | rfl | rfl | rfl <;> refine ⟨?_, ⟨?_, by decide⟩, fun _ => ⟨?_, by decide⟩, by decide⟩ <;>
      simp +decide [Fits]

/-- The order of the streams is not among the bytes, so the programs of the two graphs are alike. -/
theorem sums_compiled_alike :
    (sumGraph "a" "b").streams ≠ (sumGraph "b" "a").streams ∧
      ∃ e e', Executable.compile (sumGraph "a" "b") 1 7 = .ok e ∧ Executable.compile (sumGraph "b" "a") 1 7 = .ok e' ∧
        e.Alike e' := by
  have hops : (sumGraph "a" "b").ops = (sumGraph "b" "a").ops := by decide
  have htensors : (sumGraph "a" "b").tensors = (sumGraph "b" "a").tensors := by decide
  have hacyclic : ∀ first second, (sumGraph first second).order = .ok [0] → (sumGraph first second).Acyclic :=
    fun first second h => (order_complete (sumGraph_sound first second).linked h).acyclic
  have hlisted : ∀ first second, (∀ t ∈ (sumGraph first second).streams, ∃ x,
      (sumGraph first second).tensor? t = some x ∧ x.type = .stream) → (sumGraph first second).StreamsListed :=
    fun first second h t => ⟨h t, fun ⟨_, hx, hstream⟩ => (sumGraph_sound first second).streamsAll hx hstream⟩
  have hencodable : (sumGraph "b" "a").Encodable :=
    ⟨hops ▸ sumGraph_encodable.ops, htensors ▸ sumGraph_encodable.tensors⟩
  refine ⟨by decide, ?_⟩
  rcases signature_covers_compilation (sumGraph_sound "a" "b").wellFormed (sumGraph_sound "b" "a").wellFormed
    (hacyclic "a" "b" (by decide)) (hacyclic "b" "a" (by decide)) sumGraph_encodable hencodable
    (hlisted "a" "b" (by decide)) (hlisted "b" "a" (by decide)) (by decide +kernel) 1 7 with h | ⟨⟨f, hf⟩, -⟩
  · exact h
  · have hsome : (Executable.compile (sumGraph "a" "b") 1 7).toOption.isSome = true := by decide +kernel
    rw [hf] at hsome
    cases hsome

end Graph

end TensorGraph
