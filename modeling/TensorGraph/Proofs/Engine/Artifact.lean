import TensorGraph.Engine.Cache
import TensorGraph.Proofs.Stateful
import TensorGraph.Proofs.Wire.Kinds

/-!
The byte format of kept programs. A program is spelled by its fields in order, its fragments and its infos by the
lists of their entries; that spelling obeys the law of a byte format, and so does a header in front of it. So a kept
program is read back as it was, and nothing is read of what was cut short or does not start as every artifact does.
-/
namespace TensorGraph

instance : LawfulWire CompiledOp :=
  .ofEquiv
    ⟨fun op => (op.name, op.kind, op.inputs, op.outputs, op.infos, op.phase, op.virtualGraph, op.inPlace),
      fun (name, kind, inputs, outputs, infos, phase, virtualGraph, inPlace) =>
        ⟨name, kind, inputs, outputs, infos, phase, virtualGraph, inPlace⟩,
      fun _ => rfl, fun _ => rfl⟩
    (fun op => by
      have hput : put op = put op.name ++ put op.kind ++ put op.inputs ++ put op.outputs ++ put op.infos ++
          put op.phase ++ put op.virtualGraph ++ put op.inPlace := rfl
      simp only [hput, Equiv.coe_fn_mk, Wire.put_pair, List.append_assoc])
    (by simp only [Wire.get_pair, map_bind, bind_assoc, pure_bind, map_pure]; rfl)

instance : LawfulWire ArtifactHeader :=
  .ofEquiv
    ⟨fun h => (h.key, h.graphHash, h.streamNames), fun (key, graphHash, streamNames) => ⟨key, graphHash, streamNames⟩,
      fun _ => rfl, fun _ => rfl⟩
    (fun h => by
      have hput : put h = put h.key ++ put h.graphHash ++ put h.streamNames := rfl
      simp only [hput, Equiv.coe_fn_mk, Wire.put_pair, List.append_assoc])
    (by simp only [Wire.get_pair, map_bind, bind_assoc, pure_bind, map_pure]; rfl)

/-! ## Spellings -/

/-- The fields of a program as bytes spell them: fragments and infos are lists of entries. -/
abbrev ProgramFields :=
  UInt64 × Nat × List (Phase × List CompiledOp) × List (TensorId × TensorInfo) × List (TensorId × TensorInfo) ×
    List (TensorId × TensorInfo) × List (TensorId × HostTensor) × List (TensorId × TensorId) ×
    List (TensorId × TensorInfo)

namespace Executable

/-- The fields of a program. -/
def fields (e : Executable) : ProgramFields :=
  (e.graphHash, e.virtualGraphs, e.fragments.entries, e.streams, e.weights, e.optimizerStreams, e.constants,
    e.updates, e.infos.entries)

/-- The program with the given fields. -/
def ofFields : ProgramFields → Executable
  | (graphHash, virtualGraphs, fragments, streams, weights, optimizerStreams, constants, updates, infos) =>
    ⟨graphHash, virtualGraphs, Dict.ofList fragments, streams, weights, optimizerStreams, constants, updates,
      Dict.ofList infos⟩

theorem put_eq (e : Executable) : put e = put e.fields := by
  have hput : put e = put e.graphHash ++ put e.virtualGraphs ++ put e.fragments.entries ++ put e.streams ++
      put e.weights ++ put e.optimizerStreams ++ put e.constants ++ put e.updates ++ put e.infos.entries := rfl
  simp only [hput, fields, Wire.put_pair, List.append_assoc]

theorem get_eq : (Wire.get : Reader Executable) = ofFields <$> Wire.get := by
  have hprogram : (Wire.get : Reader Executable) = do
      return ⟨← Wire.get, ← Wire.get, Dict.ofList (← Wire.get), ← Wire.get, ← Wire.get, ← Wire.get, ← Wire.get,
        ← Wire.get, Dict.ofList (← Wire.get)⟩ := by
    simp only [Wire.get, bind_assoc, pure_bind]
  simp only [hprogram, Wire.get_pair, map_bind, bind_assoc, pure_bind, map_pure]
  rfl

theorem ofFields_fields (e : Executable) : ofFields e.fields = e := by
  simp only [fields, ofFields, Dict.ofList_entries]

/-- Whether the words of the format hold every number of the program and every length of its texts and lists. -/
def Storable (e : Executable) : Prop := Fits e.fields

end Executable

namespace Wire

variable {α β γ : Type} [Wire α] [Wire β] [Wire γ]

/-- A pair whose second part is spelled by others. -/
theorem get_pair_eq {f : γ → β} (h : (Wire.get : Reader β) = f <$> Wire.get) :
    (Wire.get : Reader (α × β)) = Prod.map id f <$> Wire.get := by
  simp only [get_pair, h, map_bind, map_pure, bind_map_left]
  rfl

end Wire

namespace Artifact

variable {key : UInt64} {e : Executable} {bytes : Bytes}

theorem body_fits (h : e.Storable) : Fits (header key e, e.fields) := by
  refine ⟨⟨trivial, trivial, ?_⟩, h⟩
  obtain ⟨-, -, -, ⟨hlen, hstreams⟩, -⟩ := h
  constructor
  · change (e.streams.map _).length < Word.limit
    rw [List.length_map]
    exact hlen
  · intro id hid
    obtain ⟨stream, hmem, rfl⟩ := List.mem_map.1 hid
    exact (hstreams stream hmem).1

/-! ## Artifacts -/

/-- The magic and the version. -/
def front : Bytes := magic ++ put formatVersion

theorem toBytes_eq (key : UInt64) (e : Executable) : toBytes key e = front ++ put (header key e, e.fields) := by
  rw [toBytes, Executable.put_eq, Wire.put_pair (header key e), front, List.append_assoc (magic ++ put formatVersion)]

theorem ofBytes_front (body : Bytes) :
    ofBytes (front ++ body) = .orFail (Wire.decode? body) (.cache .undecodable) := by
  have hlen : ¬ (front ++ body).length < magic.length + 4 := by
    simp only [List.length_append]
    exact Nat.not_lt.2 (Nat.le_add_right _ _)
  have hmagic : (front ++ body).take magic.length = magic := by
    rw [front, List.append_assoc, List.take_left]
  have hversion : ((front ++ body).drop magic.length).take 4 = put formatVersion := by
    rw [front, List.append_assoc, List.drop_left]
    exact List.take_left' rfl
  have hbody : (front ++ body).drop (magic.length + 4) = body := List.drop_left' rfl
  simp only [ofBytes, hlen, hmagic, hversion, hbody, ne_eq, not_true_eq_false, or_false, if_false]
  rfl

/-- What does not start as every artifact does is refused. -/
theorem ofBytes_of_not_front (h : ¬ front <+: bytes) : ∃ c, ofBytes bytes = .fail (.cache c) := by
  unfold ofBytes
  split
  · exact ⟨_, rfl⟩
  · rename_i hmagic
    simp only
    split
    · exact ⟨_, rfl⟩
    · rename_i hversion
      simp only [ne_eq, not_or, not_not, not_lt] at hmagic hversion
      refine absurd ⟨bytes.drop (magic.length + 4), ?_⟩ h
      have hword : (bytes.drop magic.length).take 4 = put formatVersion := by
        rw [← Wire.little_ofLittle ((bytes.drop magic.length).take 4), hversion, List.length_take, List.length_drop,
          min_eq_left (by omega)]
        rfl
      rw [front, ← hmagic.2, ← hword, List.append_assoc, List.length_take, min_eq_left (by omega), ← List.drop_drop]
      simp only [List.take_append_drop]

/-- What is read is a header and what the fields behind it make. -/
theorem decode?_eq_some {body : Bytes} {h : ArtifactHeader} :
    Wire.decode? body = some (h, e) ↔
      ∃ f rest, Fits (h, f) ∧ body = put (h, f) ++ rest ∧ e = Executable.ofFields f := by
  rw [Wire.decode?, Wire.get_pair_eq Executable.get_eq]
  constructor
  · intro hread
    obtain ⟨⟨_, rest⟩, hread, rfl⟩ := Option.map_eq_some_iff.1 hread
    obtain ⟨⟨h', f⟩, hf, heq⟩ := Wire.run_map_eq_some.1 hread
    cases heq
    obtain ⟨hfits, rfl⟩ := LawfulWire.get_iff.1 hf
    exact ⟨f, rest, hfits, rfl, rfl⟩
  · rintro ⟨f, rest, hfits, rfl, rfl⟩
    rw [Wire.run_map_eq_some.2 ⟨(h, f), LawfulWire.get_iff.2 ⟨hfits, rfl⟩, rfl⟩]
    rfl

/-- A kept program is read back. -/
theorem ofBytes_toBytes (h : e.Storable) (key : UInt64) : ofBytes (toBytes key e) = .ok (header key e, e) := by
  rw [toBytes_eq, ofBytes_front, Outcome.orFail_eq_ok, decode?_eq_some]
  exact ⟨e.fields, [], body_fits h, (List.append_nil _).symm, e.ofFields_fields.symm⟩

/-- No program is read from what was cut short. -/
theorem ofBytes_of_cut (h : e.Storable) (hbytes : bytes <+: toBytes key e) (hne : bytes ≠ toBytes key e) :
    ∃ c, ofBytes bytes = .fail (.cache c) := by
  by_cases hfront : front <+: bytes
  · obtain ⟨body, rfl⟩ := hfront
    obtain ⟨cut, hcut⟩ := hbytes
    rw [ofBytes_front]
    cases hbody : (Wire.decode? body : Option (ArtifactHeader × Executable)) with
    | none => exact ⟨_, rfl⟩
    | some found =>
      obtain ⟨f, rest, hf, rfl, -⟩ := decode?_eq_some.1 hbody
      have hput : put (found.1, f) ++ (rest ++ cut) = put (header key e, e.fields) ++ [] := by
        rw [toBytes_eq, List.append_assoc, List.append_assoc] at hcut
        rw [List.append_nil]
        exact List.append_cancel_left hcut
      have hempty := (LawfulWire.put_append_inj hf (body_fits h) hput).2
      refine absurd ?_ hne
      rw [← hcut, (List.append_eq_nil_iff.1 hempty).2, List.append_nil]
  · exact ofBytes_of_not_front hfront

/-- Another magic or another version is refused. -/
theorem ofBytes_of_other_front {start body : Bytes} (hlen : start.length = front.length) (hne : start ≠ front) :
    ∃ c, ofBytes (start ++ body) = .fail (.cache c) := by
  refine ofBytes_of_not_front fun ⟨rest, hrest⟩ => hne ?_
  exact (List.append_inj_left hrest hlen.symm).symm

end Artifact

end TensorGraph
