import TensorGraph.Platform.Files
import TensorGraph.Proofs.Collection
import TensorGraph.Proofs.Stateful

/-!
What calls on files leave. Directories are only ever added, so a path that leads somewhere leads to the same place ever
after; making directories changes no file, and writing changes only the file at the place that its path leads to. The
last step of a path is the name of the file, so files of different names are at different places.
-/
namespace TensorGraph

/-! ## Paths -/

namespace Path

/-- A plain name: a step of its own that leads elsewhere. -/
structure IsName (name : String) : Prop where
  noSlash : '/' ∉ name.toList
  ne_empty : name ≠ ""
  ne_dot : name ≠ "."
  ne_dots : name ≠ ".."
  short : name.utf8ByteSize ≤ maxNameLength

theorem endsInSlash_iff {path : String} : endsInSlash path = true ↔ ∃ front, path.toList = front ++ ['/'] := by
  rw [endsInSlash, beq_iff_eq, List.getLast?_eq_some_iff]

/-- The steps of a path that is given by its characters. -/
def stepsOf (chars : List Char) : List String := ((chars.splitOn '/').map String.ofList).filter (· ≠ "")

theorem steps_eq (path : String) : steps path = stepsOf path.toList := rfl

theorem stepsOf_append_slash (front rest : List Char) :
    stepsOf (front ++ '/' :: rest) = stepsOf front ++ stepsOf rest := by
  have hsplit : (front ++ '/' :: rest).splitOn '/' = front.splitOn '/' ++ rest.splitOn '/' := by
    simp only [List.splitOn_eq_splitOnP]
    exact List.splitOnP_append_cons front rest (beq_self_eq_true '/')
  rw [stepsOf, hsplit, List.map_append, List.filter_append]
  rfl

theorem stepsOf_nil : stepsOf [] = [] := by decide

theorem stepsOf_name {name : String} (h : IsName name) : stepsOf name.toList = [name] := by
  have hsplit : name.toList.splitOn '/' = [name.toList] := by
    rw [List.splitOn_eq_splitOnP]
    refine List.splitOnP_eq_singleton fun c hc => ?_
    rw [beq_eq_false_iff_ne]
    rintro rfl
    exact h.noSlash hc
  simp [stepsOf, hsplit, h.ne_empty]

theorem steps_join (dir : String) {name : String} (h : IsName name) : steps (join dir name) = steps dir ++ [name] := by
  unfold join
  split
  · rename_i hdir
    rw [Bool.or_eq_true, String.isEmpty_iff, endsInSlash_iff] at hdir
    rcases hdir with rfl | ⟨front, hfront⟩
    · rw [String.empty_append, steps_eq, steps_eq, stepsOf_name h, String.toList_empty, stepsOf_nil, List.nil_append]
    · rw [steps_eq, steps_eq, String.toList_append, hfront, List.append_assoc, List.singleton_append,
        stepsOf_append_slash, stepsOf_append_slash, stepsOf_name h, stepsOf_nil, List.append_nil]
  · have hslash : ("/" : String).toList = ['/'] := by decide
    rw [steps_eq, String.toList_append, String.toList_append, hslash, List.append_assoc, List.singleton_append,
      stepsOf_append_slash, stepsOf_name h, steps_eq]

theorem walk_join (dir : String) {name : String} (h : IsName name) : walk (join dir name) = steps dir ++ [name] := by
  have hend : ¬ endsInSlash (join dir name) = true := by
    rw [endsInSlash_iff]
    rintro ⟨front, hfront⟩
    have hlast : (join dir name).toList.getLast? = name.toList.getLast? := by
      have hne : name.toList ≠ [] := fun hnil => h.ne_empty (String.toList_eq_nil_iff.1 hnil)
      unfold join
      split <;> rw [String.toList_append, List.getLast?_append_of_ne_nil _ hne]
    rw [hfront, List.getLast?_concat] at hlast
    exact h.noSlash (List.mem_of_getLast? hlast.symm)
  rw [walk, if_neg hend, steps_join dir h]

end Path

/-! ## Places -/

namespace Files

variable {f f' f'' : Files} {p q : Place} {path : String}

/-- Directories are only added. -/
def Grows (f f' : Files) : Prop := ∀ p, f.isDirectory p = true → f'.isDirectory p = true

theorem Grows.refl (f : Files) : Grows f f := fun _ h => h

theorem Grows.trans (h : Grows f f') (h' : Grows f' f'') : Grows f f'' := fun p hp => h' p (h p hp)

theorem Grows.walk? (h : Grows f f') : ∀ {steps : List String} {p q : Place}, f.walk? p steps = some q →
    f'.walk? p steps = some q
  | [], p, q, hw => hw
  | name :: steps, p, q, hw => by
    rw [Files.walk?] at hw ⊢
    split at hw
    · rename_i hdir
      rw [if_pos (h p hdir)]
      obtain ⟨p', hstep, hw⟩ := Option.bind_eq_some_iff.1 hw
      exact Option.bind_eq_some_iff.2 ⟨p', hstep, h.walk? hw⟩
    · cases hw

theorem Grows.locate? (h : Grows f f') (hl : f.locate? path = some p) : f'.locate? path = some p := by
  unfold Files.locate? at hl ⊢
  split at hl
  · rename_i hu
    rw [if_pos hu]
    exact h.walk? hl
  · cases hl

theorem walk?_last {name : String} (h : Path.IsName name) : ∀ {steps : List String} {p q : Place},
    f.walk? p (steps ++ [name]) = some q → q.getLast? = some name
  | [], p, q, hw => by
    rw [List.nil_append, walk?] at hw
    split at hw
    · obtain ⟨p', hstep, hw⟩ := Option.bind_eq_some_iff.1 hw
      cases hw
      rw [Place.step?, if_neg h.ne_dot, if_neg h.ne_dots, if_pos h.short, Option.some.injEq] at hstep
      rw [← hstep, List.getLast?_concat]
    · cases hw
  | step :: steps, p, q, hw => by
    rw [List.cons_append, walk?] at hw
    split at hw
    · obtain ⟨p', -, hw⟩ := Option.bind_eq_some_iff.1 hw
      exact walk?_last h hw
    · cases hw

/-- The place of a file ends with its name. -/
theorem getLast?_of_locate? {dir name : String} (h : Path.IsName name)
    (hl : f.locate? (Path.join dir name) = some p) : p.getLast? = some name := by
  unfold locate? at hl
  split at hl
  · rw [Path.walk_join dir h] at hl
    exact walk?_last h hl
  · cases hl

theorem read?_eq_some {bytes : Bytes} :
    f.read? path = some bytes ↔ ∃ p, f.locate? path = some p ∧ f.contents.get? p = some bytes :=
  Option.bind_eq_some_iff

theorem contains_of_read? {bytes : Bytes} (h : f.read? path = some bytes) : f.contains path = true := by
  obtain ⟨p, hl, hget⟩ := read?_eq_some.1 h
  rw [contains, hl, Option.any_some, Bool.or_eq_true]
  exact .inr (Dict.contains_iff.2 ⟨bytes, hget⟩)

/-! ## Changes -/

/-- Only directories were added. -/
structure Extends (f f' : Files) : Prop where
  grows : Grows f f'
  contents : f'.contents = f.contents

namespace Extends

theorem refl (f : Files) : Extends f f := ⟨.refl f, rfl⟩

theorem trans (h : Extends f f') (h' : Extends f' f'') : Extends f f'' :=
  ⟨h.grows.trans h'.grows, h'.contents.trans h.contents⟩

end Extends

theorem ensureDirectory_extends (h : f.ensureDirectory p = .ok f') : Extends f f' := by
  unfold ensureDirectory at h
  split at h
  · cases h
    exact .refl f
  · split at h
    · cases h
    · cases h
      refine ⟨fun q hq => ?_, rfl⟩
      rw [isDirectory, Bool.or_eq_true, SortedSet.contains_iff] at hq ⊢
      exact hq.imp_right fun hmem => SortedSet.mem_insert.2 (.inr hmem)

/-- Making directories adds directories, also if it fails on the way. -/
theorem makeAlong_extends {start : Place} {steps : List String} :
    Stateful.Keeps (Extends f) (makeAlong start steps) := by
  refine .forM fun i _ s hs => ?_
  rw [Stateful.run_change]
  split
  · rename_i t hok
    obtain ⟨p, -, hok⟩ := Outcome.bind_eq_ok.1 hok
    obtain ⟨f'', hok', hpure⟩ := Outcome.bind_eq_ok.1 hok
    cases hpure
    exact hs.trans (ensureDirectory_extends hok')
  · exact hs

theorem makeParents_extends : Stateful.Keeps (Extends f) (makeParents path) := by
  unfold makeParents
  split
  · exact .fail _
  · exact makeAlong_extends

theorem makeDirectory_extends : Stateful.Keeps (Extends f) (makeDirectory path) := by
  refine makeParents_extends.bind fun _ => ?_
  split
  · refine .get_bind fun s hs => .get_bind fun t ht => ?_
    split
    · exact .fail _
    · exact .pure _
  · exact makeAlong_extends

/-- Directories may have been added, and the file that a path leads to has the given bytes; all others are as they
were. -/
structure Wrote (path : String) (bytes : Bytes) (f f' : Files) : Prop where
  grows : Grows f f'
  place : ∃ p, f'.locate? path = some p ∧ ∀ q, f'.contents.get? q = if p = q then some bytes else f.contents.get? q

theorem Extends.wrote {bytes : Bytes} (h : Extends f f') (hw : Wrote path bytes f' f'') : Wrote path bytes f f'' :=
  ⟨h.grows.trans hw.grows, h.contents ▸ hw.place⟩

theorem wrote_of_write {bytes : Bytes} (h : f.write path bytes = .ok f') : Wrote path bytes f f' := by
  obtain ⟨p, hl, h⟩ := Outcome.bind_eq_ok.1 h
  rw [Outcome.orFail_eq_ok] at hl
  split at h
  · cases h
  · cases h
    have hgrows : Grows f { f with contents := f.contents.insert p bytes } := fun _ hq => hq
    exact ⟨hgrows, p, hgrows.locate? hl, fun q => Dict.get?_insert f.contents p q bytes⟩

end Files

end TensorGraph
