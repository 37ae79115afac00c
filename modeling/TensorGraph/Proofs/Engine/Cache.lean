import Mathlib.Data.String.Basic
import TensorGraph.Engine.Cache
import TensorGraph.Proofs.Engine.Artifact
import TensorGraph.Proofs.Platform.Files

/-!
Kept programs. A call on the cache writes at most one file, that of its own key, with a program that it was given, that
is in memory or that it read, and it puts no other program into memory. So along any calls the file of a program stays
as it was written until a call writes at the same place, what is found under a key was stored under it, and a file that
is not what is wanted is refused. Only what memory finds is not asked for the names of its streams.
-/
namespace TensorGraph

/-! ## Names of files -/

namespace Text

theorem digitChar_inj {m n : Nat} (hm : m < 16) (hn : n < 16) (h : Nat.digitChar m = Nat.digitChar n) : m = n := by
  have hall : ∀ a b : Fin 16, Nat.digitChar a = Nat.digitChar b → a = b := by decide
  exact congrArg Fin.val (hall ⟨m, hm⟩ ⟨n, hn⟩ h)

theorem mod_eq_of_digits {width m n : Nat} (h : ∀ i < width, m / 16 ^ i % 16 = n / 16 ^ i % 16) :
    m % 16 ^ width = n % 16 ^ width := by
  induction width with
  | zero => rw [Nat.pow_zero, Nat.mod_one, Nat.mod_one]
  | succ width ih =>
    rw [Nat.mod_pow_succ, Nat.mod_pow_succ, h width width.lt_succ_self, ih fun i hi => h i (Nat.lt_succ_of_lt hi)]

/-- Numbers with the same digits are the same. -/
theorem hex_inj {width m n : Nat} (hm : m < 16 ^ width) (hn : n < 16 ^ width) (h : hex width m = hex width n) :
    m = n := by
  have hdigits := List.map_inj_left.1 (String.ofList_inj.1 h)
  have hmod : m % 16 ^ width = n % 16 ^ width := by
    refine mod_eq_of_digits fun i hi => digitChar_inj (Nat.mod_lt _ (by decide)) (Nat.mod_lt _ (by decide)) ?_
    exact hdigits i (List.mem_reverse.2 (List.mem_range.2 hi))
  rwa [Nat.mod_eq_of_lt hm, Nat.mod_eq_of_lt hn] at hmod

theorem hex64_inj {v w : UInt64} (h : hex64 v = hex64 w) : v = w :=
  UInt64.toNat_inj.1 (hex_inj v.toNat_lt w.toNat_lt h)

/-- The digits of a word are plain: none is a slash, and each takes one byte. -/
theorem plain_of_mem_hex {width n : Nat} {c : Char} (h : c ∈ (hex width n).toList) : c ≠ '/' ∧ c.utf8Size = 1 := by
  rw [hex, String.toList_ofList] at h
  obtain ⟨i, -, rfl⟩ := List.mem_map.1 h
  have hall : ∀ d : Fin 16, Nat.digitChar d ≠ '/' ∧ (Nat.digitChar d).utf8Size = 1 := by decide
  exact hall ⟨_, Nat.mod_lt _ (by decide)⟩

theorem length_hex (width n : Nat) : (hex width n).toList.length = width := by
  rw [hex, String.toList_ofList, List.length_map, List.length_reverse, List.length_range]

theorem utf8ByteSize_hex (width n : Nat) : (hex width n).utf8ByteSize = width := by
  have hlen : ∀ l : List Char, (∀ c ∈ l, c.utf8Size = 1) → String.utf8Len l = l.length := by
    intro l
    induction l with
    | nil => exact fun _ => rfl
    | cons c l ih =>
      intro h
      rw [String.utf8Len_cons, ih fun d hd => h d (List.mem_cons_of_mem c hd), h c (by simp), List.length_cons]
  rw [← String.ofList_toList (s := hex width n), String.utf8ByteSize_ofList, hlen _ fun c hc => (plain_of_mem_hex hc).2,
    length_hex]

end Text

/-! ## Programs in memory -/

namespace RecentEngines

variable {r : RecentEngines} {key : UInt64} {e : Executable}

theorem use_fst (r : RecentEngines) (key : UInt64) : (r.use key).1 = r.lookup key := by
  unfold use
  split <;> rename_i h <;> exact h.symm

theorem use_snd_of_some (h : r.lookup key = some e) : (r.use key).2 = r.insert key e := by
  simp only [use, h]

theorem mem_of_lookup (h : r.lookup key = some e) : (key, e) ∈ r := by
  obtain ⟨l, m, rfl, -⟩ := List.lookup_eq_some_iff.1 h
  simp

theorem mem_insert {x : UInt64 × Executable} (h : x ∈ r.insert key e) : x = (key, e) ∨ x ∈ r := by
  rcases List.mem_cons.1 (List.mem_of_mem_take h) with rfl | hmem
  · exact .inl rfl
  · exact .inr (List.mem_filter.1 hmem).1

theorem mem_use {x : UInt64 × Executable} (h : x ∈ (r.use key).2) : x ∈ r := by
  unfold use at h
  split at h
  · rename_i e hlookup
    rcases mem_insert h with rfl | hmem
    · exact mem_of_lookup hlookup
    · exact hmem
  · exact h

end RecentEngines

namespace EngineStore

/-! ## Calls -/

/-- A call on the cache. -/
inductive Call where
  | store (dir : String) (key : UInt64) (e : Executable)
  | lookup (dir : String) (key graphHash : UInt64) (streamNames : List TensorId)

namespace Call

/-- The key that a call is for. -/
def key : Call → UInt64
  | store _ key _ => key
  | lookup _ key _ _ => key

/-- The path of the file that a call is for. -/
def path : Call → String
  | store dir key _ => pathOf dir key
  | lookup dir key _ _ => pathOf dir key

/-- What a call leaves, also if it fails. -/
def perform (s : EngineStore) : Call → EngineStore
  | store dir key e => ((EngineStore.store dir key e).run s).2
  | lookup dir key graphHash streamNames => ((EngineStore.lookup dir key graphHash streamNames).run s).2

end Call

/-- The store that calls leave. -/
def after (s : EngineStore) (calls : List Call) : EngineStore := calls.foldl Call.perform s

/-! ## Files of programs -/

open Stateful (Ends)

variable {s t : EngineStore} {dir : String} {key graphHash : UInt64} {streamNames : List TensorId} {e : Executable}
  {bytes : Bytes} {p : Place}

/-- The name of the file of a program. -/
def fileName (key : UInt64) : String := Text.hex64 key ++ ".fgexe"

theorem isName_fileName (key : UInt64) : Path.IsName (fileName key) := by
  have hchars : (fileName key).toList = (Text.hex64 key).toList ++ ".fgexe".toList := String.toList_append
  have hlen : (fileName key).toList.length = 22 := by
    rw [hchars, List.length_append, Text.hex64, Text.length_hex]
    rfl
  have hother : ∀ name : String, name.toList.length ≠ 22 → fileName key ≠ name := by
    rintro _ hne rfl
    exact hne hlen
  refine ⟨?_, hother _ (by decide), hother _ (by decide), hother _ (by decide), ?_⟩
  · rw [hchars, List.mem_append]
    rintro (hmem | hmem)
    · exact (Text.plain_of_mem_hex hmem).1 rfl
    · exact absurd hmem (by decide)
  · rw [fileName, String.utf8ByteSize_append, Text.hex64, Text.utf8ByteSize_hex]
    decide

/-- Keys have files of different names. -/
theorem fileName_inj {key key' : UInt64} (h : fileName key = fileName key') : key = key' :=
  Text.hex64_inj ((String.append_left_inj _).1 h)

theorem getLast?_of_locate? {f : Files} (h : f.locate? (pathOf dir key) = some p) : p.getLast? = some (fileName key) :=
  Files.getLast?_of_locate? (isName_fileName key) h

/-! ## What calls do -/

/-- The store once memory was asked for a key. -/
def asked (s : EngineStore) (key : UInt64) : EngineStore := { s with recent := (s.recent.use key).2 }

/-- Whether memory has no program for the graph under the key, so that the file has to be read. -/
def MustRead (s : EngineStore) (key graphHash : UInt64) : Prop :=
  ∀ e, s.recent.lookup key = some e → e.graphHash ≠ graphHash

/-- Memory is as it was, and to the files only directories were added. -/
def Unwritten (s t : EngineStore) : Prop := t.recent = s.recent ∧ Files.Extends s.files t.files

theorem writeArtifact_ends : Ends
    (fun _ t => t.recent = s.recent ∧ Files.Wrote (pathOf dir key) (Artifact.toBytes key e) s.files t.files)
    (fun _ t => Unwritten s t) (writeArtifact dir key e) s := by
  refine .bind (R := fun _ t => Unwritten s t) ?_ ?_
  · refine .focus ((Ends.of_keeps Files.makeParents_extends (.refl _)).mono ?_ ?_)
    · exact fun _ _ hf => ⟨rfl, hf⟩
    · exact fun _ _ hf => ⟨rfl, hf⟩
  · rintro - t ⟨hrecent, hfiles⟩
    refine .focus (.change ?_ ?_)
    · intro _ f hf
      obtain ⟨f', hwrite, hpure⟩ := Outcome.bind_eq_ok.1 hf
      cases hpure
      exact ⟨hrecent, hfiles.wrote (Files.wrote_of_write hwrite)⟩
    · exact fun _ _ => ⟨hrecent, hfiles⟩

theorem store_ends : Ends
    (fun path t => path = pathOf dir key ∧ t.recent = s.recent.insert key e ∧
      Files.Wrote (pathOf dir key) (Artifact.toBytes key e) s.files t.files)
    (fun _ t => Unwritten s t) (store dir key e) s := by
  refine .bind (R := fun _ t => Unwritten s t) ?_ ?_
  · refine .focus ((Ends.of_keeps Files.makeDirectory_extends (.refl _)).mono ?_ ?_)
    · exact fun _ _ hf => ⟨rfl, hf⟩
    · exact fun _ _ hf => ⟨rfl, hf⟩
  · rintro - t ⟨hrecent, hfiles⟩
    refine .bind (writeArtifact_ends.mono (fun _ _ h => h) ?_) ?_
    · rintro - u ⟨hu, hfiles'⟩
      exact ⟨hu.trans hrecent, hfiles.trans hfiles'⟩
    · rintro - u ⟨hu, hwrote⟩
      refine .bind (R := fun _ v => v = { u with recent := u.recent.insert key e }) (.modify rfl) ?_
      rintro - _ rfl
      exact .pure ⟨rfl, by rw [hu, hrecent], hfiles.wrote hwrote⟩

theorem run_useRecent (key : UInt64) (s : EngineStore) :
    (useRecent key).run s = (.ok (s.recent.lookup key), s.asked key) := by
  rw [← RecentEngines.use_fst]
  rfl

/-- Memory answers, whatever names are wanted. -/
theorem run_lookup_of_recent (h : s.recent.lookup key = some e) (hash : e.graphHash = graphHash) :
    (lookup dir key graphHash streamNames).run s =
      (do
        if !s.files.contains (pathOf dir key) then writeArtifact dir key e
        return some e : EngineStoreM (Option Executable)).run (s.asked key) := by
  rw [lookup, Stateful.run_bind, run_useRecent]
  simp only [h, Option.filter_some, hash, decide_true, if_true]
  rfl

/-- Memory does not answer. -/
theorem run_lookup_of_mustRead (h : s.MustRead key graphHash) :
    (lookup dir key graphHash streamNames).run s =
      (if s.files.contains (pathOf dir key) then some <$> readArtifact dir key graphHash streamNames
        else pure none : EngineStoreM (Option Executable)).run (s.asked key) := by
  have hnone : (s.recent.lookup key).filter (·.graphHash = graphHash) = none := by
    rw [Option.filter_eq_none_iff]
    exact fun e he => by simpa using h e he
  rw [lookup, Stateful.run_bind, run_useRecent]
  simp only [hnone]
  change (if s.files.contains (pathOf dir key) then _ else _ : EngineStoreM (Option Executable)).run _ = _
  split <;> rfl

theorem run_lookup_of_no_file (h : s.MustRead key graphHash) (hfile : s.files.contains (pathOf dir key) = false) :
    (lookup dir key graphHash streamNames).run s = (.ok none, s.asked key) := by
  rw [run_lookup_of_mustRead h, hfile]
  rfl

/-- Memory does not answer and the file has the given bytes: what happens is what these bytes make. -/
theorem run_lookup_of_bytes (h : s.MustRead key graphHash) (hread : s.files.read? (pathOf dir key) = some bytes) :
    (lookup dir key graphHash streamNames).run s =
      match Artifact.ofBytes bytes with
      | .ok (header, e) =>
        if header ≠ ⟨key, graphHash, streamNames⟩ ∨ e.graphHash ≠ graphHash then
          (.fail (.cache (.mismatch (pathOf dir key) header.key header.graphHash key graphHash)), s.asked key)
        else (.ok (some e), { s.asked key with recent := (s.asked key).recent.insert key e })
      | .error f => (.error f, s.asked key) := by
  have hasked : (s.asked key).files.read? (pathOf dir key) = some bytes := hread
  rw [run_lookup_of_mustRead h, Files.contains_of_read? hread, if_pos rfl, readArtifact]
  simp only [map_bind, Stateful.run_bind, Stateful.run_get, hasked, Outcome.orFail, Stateful.run_liftM]
  cases Artifact.ofBytes bytes with
  | error f => rfl
  | ok found =>
    obtain ⟨header, e⟩ := found
    simp only
    split
    · rfl
    · rfl

/-- The ways in which a look-up finds a program, and what it leaves. -/
inductive Finds (dir : String) (key graphHash : UInt64) (streamNames : List TensorId) (s : EngineStore) :
    Option Executable → EngineStore → Prop
  | memory {e : Executable} {t : EngineStore} (found : s.recent.lookup key = some e) (hash : e.graphHash = graphHash)
      (recent : t.recent = s.recent.insert key e)
      (files : t.files = s.files ∨ Files.Wrote (pathOf dir key) (Artifact.toBytes key e) s.files t.files) :
      Finds dir key graphHash streamNames s (some e) t
  | file {e : Executable} {t : EngineStore} {bytes : Bytes} (must : s.MustRead key graphHash)
      (read : s.files.read? (pathOf dir key) = some bytes)
      (decoded : Artifact.ofBytes bytes = .ok (⟨key, graphHash, streamNames⟩, e)) (hash : e.graphHash = graphHash)
      (recent : t.recent = (s.asked key).recent.insert key e) (files : t.files = s.files) :
      Finds dir key graphHash streamNames s (some e) t
  | nothing {t : EngineStore} (must : s.MustRead key graphHash) (left : t = s.asked key) :
      Finds dir key graphHash streamNames s none t

theorem run_lookup_of_directory (h : s.MustRead key graphHash) (hpath : s.files.contains (pathOf dir key) = true)
    (hread : s.files.read? (pathOf dir key) = none) :
    (lookup dir key graphHash streamNames).run s = (.fail .files, s.asked key) := by
  have hasked : (s.asked key).files.read? (pathOf dir key) = none := hread
  rw [run_lookup_of_mustRead h, if_pos hpath, readArtifact]
  simp only [map_bind, Stateful.run_bind, Stateful.run_get, hasked, Outcome.orFail, Stateful.run_liftM]
  rfl

theorem lookup_ends_of_recent (h : s.recent.lookup key = some e) (hash : e.graphHash = graphHash) :
    Ends (Finds dir key graphHash streamNames s) (fun _ t => Unwritten (s.asked key) t)
      (lookup dir key graphHash streamNames) s := by
  have hrecent : (s.asked key).recent = s.recent.insert key e := RecentEngines.use_snd_of_some h
  have hrun : (lookup dir key graphHash streamNames).run s = _ := run_lookup_of_recent h hash
  refine .of_run_eq hrun ?_
  split
  · refine .bind writeArtifact_ends ?_
    rintro - u ⟨hu, hwrote⟩
    exact .pure (.memory h hash (hu.trans hrecent) (.inr hwrote))
  · exact .pure (.memory h hash hrecent (.inl rfl))

theorem lookup_ends_of_bytes (h : s.MustRead key graphHash) (hread : s.files.read? (pathOf dir key) = some bytes) :
    Ends (Finds dir key graphHash streamNames s) (fun _ t => Unwritten (s.asked key) t)
      (lookup dir key graphHash streamNames) s := by
  have hunwritten : Unwritten (s.asked key) (s.asked key) := ⟨rfl, .refl _⟩
  have hrun : (lookup dir key graphHash streamNames).run s = _ := run_lookup_of_bytes h hread
  cases hbytes : Artifact.ofBytes bytes with
  | error f =>
    rw [hbytes] at hrun
    exact .of_eq hrun nofun fun _ _ => hunwritten
  | ok found =>
    rw [hbytes] at hrun
    simp only at hrun
    split at hrun
    · exact .of_eq hrun nofun fun _ _ => hunwritten
    · rename_i hmatch
      simp only [ne_eq, not_or, not_not] at hmatch
      refine .of_eq hrun (fun _ he => ?_) fun _ hf => by cases hf
      cases he
      exact .file h hread (hmatch.1 ▸ hbytes) hmatch.2 rfl rfl

theorem lookup_ends : Ends (Finds dir key graphHash streamNames s) (fun _ t => Unwritten (s.asked key) t)
    (lookup dir key graphHash streamNames) s := by
  by_cases hmust : s.MustRead key graphHash
  · cases hread : s.files.read? (pathOf dir key) with
    | some bytes => exact lookup_ends_of_bytes hmust hread
    | none =>
      cases hpath : s.files.contains (pathOf dir key) with
      | true => exact .of_eq (run_lookup_of_directory hmust hpath hread) nofun fun _ _ => ⟨rfl, .refl _⟩
      | false =>
        have hrun : (lookup dir key graphHash streamNames).run s = _ := run_lookup_of_no_file hmust hpath
        refine .of_eq hrun (fun _ he => ?_) fun _ hf => by cases hf
        cases he
        exact .nothing hmust rfl
  · simp only [MustRead, not_forall, not_not] at hmust
    obtain ⟨e, hlookup, hash⟩ := hmust
    exact lookup_ends_of_recent hlookup hash

/-! ## Histories -/

namespace Call

/-- The programs that a call may put somewhere: one that it is given, that is in memory or that it reads. -/
def Brings (s : EngineStore) : Call → Executable → Prop
  | store _ _ e, e' => e' = e
  | lookup dir key graphHash streamNames, e' =>
    s.recent.lookup key = some e' ∨
      ∃ bytes, s.files.read? (pathOf dir key) = some bytes ∧
        Artifact.ofBytes bytes = .ok (⟨key, graphHash, streamNames⟩, e')

/-- Memory has no program that a call did not bring, and of the files at most that of the call has changed. -/
structure Effect (c : Call) (s t : EngineStore) : Prop where
  recent : ∀ x ∈ t.recent, x ∈ s.recent ∨ x.1 = c.key ∧ c.Brings s x.2
  files : Files.Extends s.files t.files ∨
    ∃ e, c.Brings s e ∧ Files.Wrote c.path (Artifact.toBytes c.key e) s.files t.files

theorem perform_effect (c : Call) (s : EngineStore) : c.Effect s (c.perform s) := by
  cases c with
  | store dir key e =>
    rcases hrun : (EngineStore.store dir key e).run s with ⟨f | path, t⟩
    · obtain ⟨hrecent, hfiles⟩ := store_ends.error hrun
      have ht : (store dir key e).perform s = t := congrArg Prod.snd hrun
      rw [ht]
      exact ⟨fun x hx => .inl (hrecent ▸ hx), .inl hfiles⟩
    · obtain ⟨-, hrecent, hwrote⟩ := store_ends.ok hrun
      have ht : (store dir key e).perform s = t := congrArg Prod.snd hrun
      rw [ht]
      refine ⟨fun x hx => ?_, .inr ⟨e, rfl, hwrote⟩⟩
      rcases RecentEngines.mem_insert (hrecent ▸ hx) with rfl | hmem
      · exact .inr ⟨rfl, rfl⟩
      · exact .inl hmem
  | lookup dir key graphHash streamNames =>
    rcases hrun : (EngineStore.lookup dir key graphHash streamNames).run s with ⟨f | found, t⟩
    · obtain ⟨hrecent, hfiles⟩ := lookup_ends.error hrun
      have ht : (lookup dir key graphHash streamNames).perform s = t := congrArg Prod.snd hrun
      rw [ht]
      exact ⟨fun x hx => .inl (RecentEngines.mem_use (hrecent ▸ hx)), .inl hfiles⟩
    · have ht : (lookup dir key graphHash streamNames).perform s = t := congrArg Prod.snd hrun
      rw [ht]
      cases lookup_ends.ok hrun with
      | memory hlookup _ hrecent hfiles =>
        refine ⟨fun x hx => ?_, ?_⟩
        · rcases RecentEngines.mem_insert (hrecent ▸ hx) with rfl | hmem
          · exact .inl (RecentEngines.mem_of_lookup hlookup)
          · exact .inl hmem
        · exact hfiles.imp (fun h => by rw [h]; exact .refl _) fun h => ⟨_, .inl hlookup, h⟩
      | file _ hread hdecoded _ hrecent hfiles =>
        refine ⟨fun x hx => ?_, .inl (hfiles ▸ .refl _)⟩
        rcases RecentEngines.mem_insert (hrecent ▸ hx) with rfl | hmem
        · exact .inr ⟨rfl, .inr ⟨_, hread, hdecoded⟩⟩
        · exact .inl (RecentEngines.mem_use hmem)
      | nothing _ hleft =>
        subst hleft
        exact ⟨fun x hx => .inl (RecentEngines.mem_use hx), .inl (.refl _)⟩

end Call

/-! ## Files that stay -/

/-- One after the other, no call writes at the place: its path does not lead there. -/
def Elsewhere (p : Place) (s : EngineStore) : List Call → Prop
  | [] => True
  | c :: calls => (c.perform s).files.locate? c.path ≠ some p ∧ Elsewhere p (c.perform s) calls

theorem Call.getLast?_of_locate? {c : Call} {f : Files} (h : f.locate? c.path = some p) :
    p.getLast? = some (fileName c.key) := by
  cases c <;> exact EngineStore.getLast?_of_locate? h

/-- The file at a place stays as it is while nothing is written there, and so does where paths lead. -/
theorem Call.Effect.spares {c : Call} (h : c.Effect s t) (hp : t.files.locate? c.path ≠ some p) :
    Files.Grows s.files t.files ∧ t.files.contents.get? p = s.files.contents.get? p := by
  rcases h.files with hfiles | ⟨e, -, hwrote⟩
  · exact ⟨hfiles.grows, by rw [hfiles.contents]⟩
  · obtain ⟨q, hq, hget⟩ := hwrote.place
    refine ⟨hwrote.grows, (hget p).trans (if_neg ?_)⟩
    rintro rfl
    exact hp hq

theorem after_spares : ∀ {calls : List Call} {s : EngineStore}, Elsewhere p s calls →
    Files.Grows s.files (after s calls).files ∧ (after s calls).files.contents.get? p = s.files.contents.get? p
  | [], s, _ => ⟨.refl _, rfl⟩
  | c :: calls, s, h => by
    obtain ⟨hgrows, hget⟩ := (c.perform_effect s).spares h.1
    obtain ⟨hgrows', hget'⟩ := after_spares h.2
    exact ⟨hgrows.trans hgrows', hget'.trans hget⟩

/-- A file that a call refuses: what was written for `key` was cut short, has another magic or version, or stands where
the file of another key should. -/
inductive Spoilt (key : UInt64) (e : Executable) (wanted : UInt64) : Bytes → Prop
  | cut {bytes : Bytes} (front : bytes <+: Artifact.toBytes key e) (short : bytes ≠ Artifact.toBytes key e) :
      Spoilt key e wanted bytes
  | changed {start body : Bytes} (whole : Artifact.toBytes key e = Artifact.front ++ body)
      (size : start.length = Artifact.front.length) (other : start ≠ Artifact.front) :
      Spoilt key e wanted (start ++ body)
  | misplaced (other : wanted ≠ key) : Spoilt key e wanted (Artifact.toBytes key e)

theorem run_lookup_of_spoilt {wanted : UInt64} (h : e.Storable) (hbytes : Spoilt key e wanted bytes)
    (hmust : s.MustRead wanted graphHash) (hread : s.files.read? (pathOf dir wanted) = some bytes) :
    ∃ c, (lookup dir wanted graphHash streamNames).run s = (.fail (.cache c), s.asked wanted) := by
  have hrefused : ∀ c, Artifact.ofBytes bytes = .fail (.cache c) →
      (lookup dir wanted graphHash streamNames).run s = (.fail (.cache c), s.asked wanted) := by
    intro c hc
    rw [run_lookup_of_bytes hmust hread, hc]
    rfl
  cases hbytes with
  | cut hfront hshort =>
    obtain ⟨c, hc⟩ := Artifact.ofBytes_of_cut h hfront hshort
    exact ⟨c, hrefused c hc⟩
  | changed _ hsize hother =>
    obtain ⟨c, hc⟩ := Artifact.ofBytes_of_other_front hsize hother
    exact ⟨c, hrefused c hc⟩
  | misplaced hother =>
    refine ⟨.mismatch (pathOf dir wanted) key e.graphHash wanted graphHash, ?_⟩
    rw [run_lookup_of_bytes hmust hread, Artifact.ofBytes_toBytes h]
    refine if_pos (.inl fun heq => hother ?_)
    exact (congrArg ArtifactHeader.key heq).symm

theorem run_lookup_of_kept (h : e.Storable) (hmust : s.MustRead key graphHash)
    (hread : s.files.read? (pathOf dir key) = some (Artifact.toBytes key e)) :
    ((lookup dir key graphHash streamNames).run s).1 =
      if e.graphHash = graphHash ∧ e.streamNames = streamNames then .ok (some e)
      else .fail (.cache (.mismatch (pathOf dir key) key e.graphHash key graphHash)) := by
  rw [run_lookup_of_bytes hmust hread, Artifact.ofBytes_toBytes h]
  simp only [Artifact.header, ne_eq, ArtifactHeader.mk.injEq, true_and]
  by_cases hash : e.graphHash = graphHash <;> by_cases hnames : e.streamNames = streamNames <;> simp [hash, hnames]

/-- Kept programs are read back exactly or refused. Once a program was stored, its file is written, and while no call
writes at the same place a look-up that has to read the file finds that program. A look-up that has to read a file
that was cut short, starts otherwise or stands in the place of another one is refused for its integrity, and keeps
nothing of it in memory. -/
theorem kept_exactly_or_refused {path : String} (h : e.Storable) (hstore : (store dir key e).run s = (.ok path, t)) :
    (∃ p, t.files.locate? path = some p ∧ t.files.contents.get? p = some (Artifact.toBytes key e) ∧
      ∀ calls, Elsewhere p t calls → (after t calls).MustRead key e.graphHash →
        ((lookup dir key e.graphHash e.streamNames).run (after t calls)).1 = .ok (some e)) ∧
    ∀ (u : EngineStore) (dir' : String) (wanted graphHash : UInt64) (streamNames : List TensorId) (bytes : Bytes),
      Spoilt key e wanted bytes → u.MustRead wanted graphHash → u.files.read? (pathOf dir' wanted) = some bytes →
        ∃ c, (lookup dir' wanted graphHash streamNames).run u = (.fail (.cache c), u.asked wanted) := by
  refine ⟨?_, fun u dir' wanted graphHash streamNames bytes => run_lookup_of_spoilt h⟩
  obtain ⟨rfl, -, hwrote⟩ := store_ends.ok hstore
  obtain ⟨p, hp, hget⟩ := hwrote.place
  have hwritten : t.files.contents.get? p = some (Artifact.toBytes key e) := (hget p).trans (if_pos rfl)
  refine ⟨p, hp, hwritten, fun calls hcalls hmust => ?_⟩
  obtain ⟨hgrows, hkept⟩ := after_spares hcalls
  have hread : (after t calls).files.read? (pathOf dir key) = some (Artifact.toBytes key e) :=
    Files.read?_eq_some.2 ⟨p, hgrows.locate? hp, hkept.trans hwritten⟩
  rw [run_lookup_of_kept h hmust hread, if_pos ⟨rfl, rfl⟩]

/-- A program that adds a constant to a stream. -/
def addingProgram : Executable where
  graphHash := 7
  virtualGraphs := 1
  fragments := .ofList [(.forward, [⟨"Add", .binary .add, ["x", "c"], ["y"], [⟨.float, [1]⟩], .forward, 0, true⟩])]
  streams := [("x", ⟨.float, [1]⟩)]
  weights := []
  optimizerStreams := []
  constants := [("c", ⟨⟨.float, [1]⟩, .f32 [.one]⟩)]
  updates := []
  infos := .ofList [("c", ⟨.float, [1]⟩), ("x", ⟨.float, [1]⟩), ("y", ⟨.float, [1]⟩)]

theorem addingProgram_storable : addingProgram.Storable := by
  have hfields : addingProgram.fields =
      (7, 1, [(.forward, [⟨"Add", .binary .add, ["x", "c"], ["y"], [⟨.float, [1]⟩], .forward, 0, true⟩])],
        [("x", ⟨.float, [1]⟩)], [], [], [("c", ⟨⟨.float, [1]⟩, .f32 [.one]⟩)], [],
        [("c", ⟨.float, [1]⟩), ("x", ⟨.float, [1]⟩), ("y", ⟨.float, [1]⟩)]) := rfl
  rw [Executable.Storable, hfields]
  simp +decide [Fits, OpKind.FieldsFit, or_imp, forall_and]

/-- Files in which what was kept under one key stands under the next. -/
def misplacedFile : EngineStore where
  files :=
    { contents := .ofList [(["kept", "0000000000000006.fgexe"], Artifact.toBytes 5 addingProgram)]
      directories := .ofList [["kept"]] }

/-- The program is read back once memory has another one under its key, from another directory, and its file is
refused under another key. -/
theorem adding_kept_or_refused :
    addingProgram.Storable ∧
      ((lookup "kept" 5 7 ["x"]).run
        (after ((store "kept" 5 addingProgram).run {}).2 [.store "other" 5 (.withoutOps 8 [])])).1 =
          .ok (some addingProgram) ∧
      ∃ c, ((lookup "kept" 6 7 ["x"]).run misplacedFile).1 = .fail (.cache c) := by
  have hstore : (store "kept" 5 addingProgram).run {} = (.ok (pathOf "kept" 5), _) := Stateful.eq_ok_of_fst (by decide)
  obtain ⟨⟨p, hp, -, hkept⟩, hrefused⟩ := kept_exactly_or_refused addingProgram_storable hstore
  have hplace : ((store "kept" 5 addingProgram).run {}).2.files.locate? (pathOf "kept" 5) =
      some ["kept", "0000000000000005.fgexe"] := by decide
  cases hplace.symm.trans hp
  refine ⟨addingProgram_storable, hkept _ ⟨by decide, trivial⟩ ?_, ?_⟩
  · have hlookup : ((after ((store "kept" 5 addingProgram).run {}).2
        [.store "other" 5 (.withoutOps 8 [])]).recent.lookup 5) = some (.withoutOps 8 []) := by decide
    intro e he
    cases hlookup.symm.trans he
    decide
  · have hread : misplacedFile.files.read? (pathOf "kept" 6) = some (Artifact.toBytes 5 addingProgram) := by
      decide +kernel
    obtain ⟨c, hc⟩ := hrefused misplacedFile "kept" 6 7 ["x"] _ (.misplaced (by decide)) nofun hread
    exact ⟨c, congrArg Prod.fst hc⟩

/-! ## Programs that are found -/

/-- All programs in memory and in files satisfy `P` with their keys, and files are named for their keys. -/
structure Kept (P : UInt64 → Executable → Prop) (s : EngineStore) : Prop where
  recent : ∀ x ∈ s.recent, P x.1 x.2
  files : ∀ {p : Place} {bytes : Bytes}, s.files.contents.get? p = some bytes →
    ∃ key e, p.getLast? = some (fileName key) ∧ bytes = Artifact.toBytes key e ∧ P key e

namespace Kept

variable {P : UInt64 → Executable → Prop} {c : Call}

theorem of_read (h : Kept P s) (hread : s.files.read? (pathOf dir key) = some bytes) :
    ∃ e, bytes = Artifact.toBytes key e ∧ P key e := by
  obtain ⟨p, hloc, hget⟩ := Files.read?_eq_some.1 hread
  obtain ⟨key', e, hlast, rfl, he⟩ := h.files hget
  cases fileName_inj (Option.some.inj (hlast.symm.trans (getLast?_of_locate? hloc)))
  exact ⟨e, rfl, he⟩

theorem of_brings (h : Kept P s) (hP : ∀ {key e}, P key e → e.Storable)
    (hc : ∀ {dir key e}, c = .store dir key e → P key e) (he : c.Brings s e) : P c.key e := by
  cases c with
  | store dir key e' =>
    cases he
    exact hc rfl
  | lookup dir key graphHash streamNames =>
    rcases he with hlookup | ⟨bytes, hread, hdecoded⟩
    · exact h.recent _ (RecentEngines.mem_of_lookup hlookup)
    · obtain ⟨e', rfl, he'⟩ := h.of_read hread
      rw [Artifact.ofBytes_toBytes (hP he')] at hdecoded
      cases hdecoded
      exact he'

theorem perform (h : Kept P s) (hP : ∀ {key e}, P key e → e.Storable)
    (hc : ∀ {dir key e}, c = .store dir key e → P key e) : Kept P (c.perform s) := by
  obtain ⟨hrecent, hfiles⟩ := c.perform_effect s
  refine ⟨fun x hx => ?_, fun {p bytes} hget => ?_⟩
  · rcases hrecent x hx with hold | ⟨hkey, hbrought⟩
    · exact h.recent x hold
    · exact hkey ▸ h.of_brings hP hc hbrought
  · rcases hfiles with hfiles | ⟨e, hbrought, hwrote⟩
    · exact h.files (hfiles.contents ▸ hget)
    · obtain ⟨q, hq, hall⟩ := hwrote.place
      rw [hall] at hget
      split at hget
      · rename_i hqp
        cases hget
        exact ⟨c.key, e, hqp ▸ Call.getLast?_of_locate? hq, rfl, h.of_brings hP hc hbrought⟩
      · exact h.files hget

theorem after (hP : ∀ {key e}, P key e → e.Storable) : ∀ {calls : List Call} {s : EngineStore}, Kept P s →
    (∀ {dir key e}, Call.store dir key e ∈ calls → P key e) → Kept P (after s calls)
  | [], _, h, _ => h
  | c :: calls, s, h, hcalls => by
    have hstep : Kept P (c.perform s) := by
      refine h.perform hP ?_
      rintro dir key e rfl
      exact hcalls (List.mem_cons_self ..)
    change Kept P (EngineStore.after (c.perform s) calls)
    exact Kept.after hP hstep fun hmem => hcalls (List.mem_cons_of_mem c hmem)

end Kept

/-- What look-ups find after any calls on a cache whose files only calls wrote. A program that is found was stored under
the key and is for the wanted graph, and if its file had to be read, for the wanted streams; and a file that has to be
read is answered with the program that was stored, exactly if that is for the wanted graph and streams, and else with a
failed integrity check. But memory answers with a program for the graph whatever streams are wanted. -/
theorem found_under_its_key (directories : SortedSet Place) (calls : List Call)
    (hfit : ∀ dir key e, Call.store dir key e ∈ calls → e.Storable) (dir : String) (key graphHash : UInt64)
    (streamNames : List TensorId) :
    let s := after { files := { directories } } calls
    let answer := ((lookup dir key graphHash streamNames).run s).1
    (∀ e, answer = .ok (some e) →
      (∃ dir', .store dir' key e ∈ calls) ∧ e.graphHash = graphHash ∧
        (s.MustRead key graphHash → e.streamNames = streamNames)) ∧
    (s.MustRead key graphHash → ∀ bytes, s.files.read? (pathOf dir key) = some bytes →
      ∃ e, (∃ dir', .store dir' key e ∈ calls) ∧ bytes = Artifact.toBytes key e ∧
        answer = if e.graphHash = graphHash ∧ e.streamNames = streamNames then .ok (some e)
          else .fail (.cache (.mismatch (pathOf dir key) key e.graphHash key graphHash))) ∧
    ∀ e, s.recent.lookup key = some e → e.graphHash = graphHash → s.files.contains (pathOf dir key) = true →
      answer = .ok (some e) := by
  intro s answer
  have hkept : Kept (fun key e => e.Storable ∧ ∃ dir, Call.store dir key e ∈ calls) s := by
    refine .after (fun h => h.1) ⟨nofun, nofun⟩ fun {dir key e} hmem => ⟨hfit dir key e hmem, dir, hmem⟩
  refine ⟨fun e hanswer => ?_, fun hmust bytes hread => ?_, fun e hlookup hash hfile => ?_⟩
  · cases lookup_ends.ok (Stateful.eq_ok_of_fst hanswer) with
    | memory hlookup hash =>
      refine ⟨(hkept.recent _ (RecentEngines.mem_of_lookup hlookup)).2, hash, fun hmust => ?_⟩
      exact absurd hash (hmust e hlookup)
    | file _ hread hdecoded hash =>
      obtain ⟨e', rfl, hfits, hstored⟩ := hkept.of_read hread
      rw [Artifact.ofBytes_toBytes hfits] at hdecoded
      cases hdecoded
      exact ⟨hstored, hash, fun _ => rfl⟩
  · obtain ⟨e, rfl, hfits, hstored⟩ := hkept.of_read hread
    exact ⟨e, hstored, rfl, run_lookup_of_kept hfits hmust hread⟩
  · have hrun : (lookup dir key graphHash streamNames).run s = _ := run_lookup_of_recent hlookup hash
    rw [hfile] at hrun
    exact congrArg Prod.fst hrun

/-- A program for two streams. -/
def pairProgram : Executable := .withoutOps 7 [("a", ⟨.float, [1]⟩), ("b", ⟨.float, [1]⟩)]

theorem pairProgram_storable : pairProgram.Storable := by
  have hfields : pairProgram.fields =
      (7, 1, [], [("a", ⟨.float, [1]⟩), ("b", ⟨.float, [1]⟩)], [], [], [], [], []) := rfl
  rw [Executable.Storable, hfields]
  simp +decide [Fits, or_imp, forall_and]

/-- From memory the program is found although its streams are wanted in another order, from its file it is not. -/
theorem found_in_another_order :
    let s := after {} [.store "c" 5 pairProgram]
    ((lookup "c" 5 7 ["b", "a"]).run s).1 = .ok (some pairProgram) ∧ pairProgram.streamNames ≠ ["b", "a"] ∧
      ((lookup "c" 5 7 ["b", "a"]).run { s with recent := [] }).1 =
        .fail (.cache (.mismatch "c/0000000000000005.fgexe" 5 7 5 7)) := by
  decide +kernel

/-- Once another program under the key came between, the file is read and refuses the other order. -/
theorem found_under_its_key_pair :
    let calls := [Call.store "c" 5 pairProgram, .store "d" 5 (.withoutOps 8 [])]
    (∀ dir key e, Call.store dir key e ∈ calls → e.Storable) ∧
      ((lookup "c" 5 7 ["b", "a"]).run (after {} calls)).1 = .fail (.cache (.mismatch (pathOf "c" 5) 5 7 5 7)) := by
  intro calls
  have hfit : ∀ dir key e, Call.store dir key e ∈ calls → e.Storable := by
    intro dir key e hmem
    rcases List.mem_cons.1 hmem with h | h
    · cases h
      exact pairProgram_storable
    · cases List.mem_singleton.1 h
      simp +decide [Executable.Storable, Executable.fields, Executable.withoutOps, Fits, Dict.empty]
  refine ⟨hfit, ?_⟩
  have hmust : (after {} calls).MustRead 5 7 := by
    have hlookup : (after {} calls).recent.lookup 5 = some (.withoutOps 8 []) := by decide +kernel
    intro e he
    cases hlookup.symm.trans he
    decide
  have hread : (after {} calls).files.read? (pathOf "c" 5) = some (Artifact.toBytes 5 pairProgram) := by
    decide +kernel
  obtain ⟨e, ⟨dir, hmem⟩, hbytes, hanswer⟩ :=
    (found_under_its_key .empty calls hfit "c" 5 7 ["b", "a"]).2.1 hmust _ hread
  have hloaded := Artifact.ofBytes_toBytes (hfit dir 5 e hmem) 5
  rw [← hbytes, Artifact.ofBytes_toBytes pairProgram_storable] at hloaded
  obtain rfl : pairProgram = e := congrArg Prod.snd (Except.ok.inj hloaded)
  exact hanswer

end EngineStore

end TensorGraph
