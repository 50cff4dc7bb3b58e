import LogicCompiler.File.Layout
import Mathlib.Data.List.Nodup

/-!
# Looking up what was loaded

`isLoaded`, and a second load under a name.  `_findFile` says "not found" with a `FileInfo` of three
zeroes and says so for seven `0xFF` bytes at once.  The three zeroes are the `FileInfo` of an entry
too: of a first entry with an empty name and an empty content.

Any other entry is found again, and only then does a load under its name do nothing
(`load_idempotent_iff`).
-/

namespace LogicCompiler

namespace FileManager

variable {m : FileManager} {records : List Record} {r : Record} {f : FileInfo} {name : List Byte}

/-- `isLoaded`, field by field. -/
def isLoaded (m : FileManager) (name : List Byte) : Bool :=
  let found := m.findFile name
  !(found.offsetBegin == notFound.offsetBegin && found.fileSize == notFound.fileSize &&
    found.nameSize == notFound.nameSize)

lemma isLoaded_iff : m.isLoaded name = true ↔ m.Known name := by
  rw [isLoaded, Known]
  rcases m.findFile name with ⟨offsetBegin, nameSize, fileSize⟩
  simp only [notFound, FileInfo.mk.injEq, Bool.not_eq_true', Bool.and_eq_false_iff, beq_eq_false_iff_ne,
    ne_eq]
  tauto

namespace Call

/-- What the call returns. -/
def result (m : FileManager) : Call → FileInfo
  | loadFile disk path => (m.loadFileAt disk path).1
  | loadFromView view filename => (m.loadFromView view filename).1
  | pop => notFound

end Call

/-- The load is idempotent: if it stores an entry, the name is loaded behind it, and a load under that
name, from a file or from a view, returns the same `FileInfo` and changes nothing. -/
def Idempotent (m : FileManager) (call : Call) : Prop :=
  ∀ r ∈ call.stores m, (call.run m).isLoaded r.name = true ∧
    (∀ disk path, cString path = r.name →
      (call.run m).loadFileAt disk (some path) = (call.result m, call.run m)) ∧
    ∀ view filename, cString filename = r.name →
      (call.run m).loadFromView view (some filename) = (call.result m, call.run m)

/-! ## Entries that can be found -/

/-- The entry has no name and no content. -/
def Record.Blank (e : Record) : Prop := e.name = [] ∧ e.content = []

instance (e : Record) : Decidable e.Blank := inferInstanceAs (Decidable (_ ∧ _))

/-- The new entry can be told from an absent one: its name is not the reserved one and, where it is
empty, the first entry of the store is not blank. -/
def Findable (records : List Record) (r : Record) : Prop :=
  r.name ≠ emptyName ∧ (r.name = [] → ∀ e ∈ (records ++ [r]).head?, ¬ e.Blank)

instance (records : List Record) (r : Record) : Decidable (Findable records r) :=
  inferInstanceAs (Decidable (_ ∧ _))

/-- Every entry stored along the sequence of calls can. -/
def AllFindable (m : FileManager) (records : List Record) : List Call → Prop
  | [] => True
  | call :: calls =>
      (∀ r ∈ call.stores m, Findable records r) ∧
        AllFindable (call.run m) (call.entries m records) calls

namespace Laid

/-- The names in the buffer are those of the entries. -/
lemma getName (h : Laid m records) {i : ℕ} {e : Record} (hf : m.loaded[i]? = some f)
    (he : records[i]? = some e) : m.getName f = e.name :=
  h.layout.name i f e hf he

lemma map_getName (h : Laid m records) : m.loaded.map m.getName = records.map Record.name := by
  refine List.ext_getElem? fun i => ?_
  rw [List.getElem?_map, List.getElem?_map]
  cases hf : m.loaded[i]? with
  | none =>
      have hlen := List.getElem?_eq_none_iff.mp hf
      rw [h.length] at hlen
      rw [List.getElem?_eq_none hlen]
      rfl
  | some f =>
      rcases h.entry hf with ⟨e, he, -⟩
      rw [he, Option.map_some, Option.map_some, h.getName hf he]

/-- Only a blank first entry looks like an absent one. -/
lemma eq_notFound_iff (h : Laid m records) {i : ℕ} {e : Record} (hf : m.loaded[i]? = some f)
    (he : records[i]? = some e) : f = notFound ↔ i = 0 ∧ e.Blank := by
  rcases h.entry hf with ⟨e', he', rfl⟩
  obtain rfl : e = e' := Option.some.inj (he.symm.trans he')
  have hstart : entryOffset records i = 0 ↔ i = 0 := by
    constructor
    · intro hzero
      by_contra hne
      have hlen : 0 < records.length := Nat.zero_lt_of_lt (List.getElem?_eq_some_iff.mp he).1
      have hfirst : (records.map Record.bytes)[0]? = some records[0].bytes := by
        rw [List.getElem?_map, List.getElem?_eq_getElem hlen]
        rfl
      have hlt := Blocks.offset_lt 0 hfirst (by simp [Record.bytes]) (Nat.pos_of_ne_zero hne)
      rw [entryOffset] at hzero
      omega
    · rintro rfl
      exact Blocks.offset_zero 0 _
  rw [Record.info, notFound, FileInfo.mk.injEq, hstart, List.length_eq_zero_iff,
    List.length_eq_zero_iff, Record.Blank]

end Laid

/-! ## Searching by name -/

/-- The search, for a name that is not reserved. -/
lemma findFile_of_ne (h : name ≠ emptyName) :
    m.findFile name = (m.loaded.find? fun i => m.getName i == name).getD notFound := if_neg h

/-- Where the name is loaded but not known, it is the empty name, and the first entry is blank. -/
lemma blank_of_not_known (h : Laid m records) (hname : name ≠ emptyName) (hknown : ¬ m.Known name)
    (hmem : name ∈ records.map Record.name) : name = [] ∧ ∃ e ∈ records.head?, e.Blank := by
  rw [← h.map_getName] at hmem
  rcases List.mem_map.mp hmem with ⟨g, hg, hgname⟩
  cases hfind : m.loaded.find? (fun i => m.getName i == name) with
  | none => exact absurd (by simpa using hgname) (List.find?_eq_none.mp hfind g hg)
  | some f =>
      have hfound : f = notFound := by
        rw [Known, findFile_of_ne hname, hfind] at hknown
        exact not_not.mp hknown
      have hfname : m.getName f = name := by simpa using List.find?_some hfind
      rcases List.mem_iff_getElem?.mp (List.mem_of_find?_eq_some hfind) with ⟨i, hi⟩
      rcases h.entry hi with ⟨e, he, -⟩
      rcases (h.eq_notFound_iff hi he).mp hfound with ⟨rfl, hblank⟩
      refine ⟨?_, e, by rw [List.head?_eq_getElem?]; exact he, hblank⟩
      rw [← hfname, h.getName hi he, hblank.1]

/-- A new name that is found again was not there before. -/
lemma Findable.not_mem (h : Laid m records) (hr : Findable records r) (hknown : ¬ m.Known r.name) :
    r.name ∉ records.map Record.name := by
  intro hmem
  rcases blank_of_not_known h hr.1 hknown hmem with ⟨hnil, e, he, hblank⟩
  refine hr.2 hnil e ?_ hblank
  cases records with
  | nil => cases he
  | cons e' records => exact he

/-- The entry behind a store under a new name. -/
lemma find_store (h : Laid m records) (hnew : r.name ∉ records.map Record.name) :
    (m.store r.name r.content).2.loaded.find?
        (fun i => (m.store r.name r.content).2.getName i == r.name) =
      some (m.store r.name r.content).1 := by
  have hlaid := h.store r
  have hlast : (m.store r.name r.content).2.loaded[m.loaded.length]? =
      some (m.store r.name r.content).1 := List.getElem?_concat_length
  have hbefore : ∀ f ∈ m.loaded,
      ¬ ((m.store r.name r.content).2.getName f == r.name) = true := by
    intro f hf hname
    rcases List.mem_iff_getElem?.mp hf with ⟨i, hi⟩
    have hlt := (List.getElem?_eq_some_iff.mp hi).1
    have hi' : (m.store r.name r.content).2.loaded[i]? = some f := by
      rw [store, List.getElem?_append_left hlt]
      exact hi
    rcases h.entry hi with ⟨e, he, -⟩
    have he' : (records ++ [r])[i]? = some e := by
      rw [List.getElem?_append_left (h.length ▸ hlt)]
      exact he
    have heq : e.name = r.name := by
      rw [← hlaid.getName hi' he']
      exact eq_of_beq hname
    exact hnew (heq ▸ List.mem_map_of_mem (List.mem_of_getElem? he))
  have hself : ((m.store r.name r.content).2.getName (m.store r.name r.content).1 == r.name) =
      true := by
    rw [hlaid.getName hlast (by rw [h.length, List.getElem?_concat_length]), beq_self_eq_true]
  show (m.loaded ++ [(m.store r.name r.content).1]).find? _ = _
  rw [List.find?_append, List.find?_eq_none.mpr hbefore, Option.none_or]
  exact List.find?_cons_of_pos hself

/-- **A new entry is found if and only if it can be told from an absent one.** -/
lemma known_store_iff (h : Laid m records) (hknown : ¬ m.Known r.name) :
    (m.store r.name r.content).2.Known r.name ↔ Findable records r := by
  have hlaid := h.store r
  constructor
  · intro hstored
    have hname : r.name ≠ emptyName := by
      intro hreserved
      exact hstored (if_pos hreserved)
    refine ⟨hname, fun hnil e he hblank => hstored ?_⟩
    -- the blank first entry is what the search for the empty name finds
    have hfirst : (records ++ [r])[0]? = some e := by rwa [List.head?_eq_getElem?] at he
    have hlen : 0 < (m.store r.name r.content).2.loaded.length := by
      rw [hlaid.length]
      exact (List.getElem?_eq_some_iff.mp hfirst).1
    have hget := List.getElem?_eq_getElem hlen
    have hfound := (hlaid.eq_notFound_iff hget hfirst).mpr ⟨rfl, hblank⟩
    have hgetName := hlaid.getName hget hfirst
    rw [findFile_of_ne hname]
    cases hloaded : (m.store r.name r.content).2.loaded with
    | nil => rfl
    | cons f rest =>
        simp only [hloaded, List.getElem_cons_zero] at hfound hgetName
        rw [List.find?_cons_of_pos (by rw [hgetName, hblank.1, hnil]; rfl), Option.getD_some, hfound]
  · intro hr
    rw [Known, findFile_of_ne hr.1, find_store h (hr.not_mem h hknown), Option.getD_some]
    intro hfound
    have hlast : (m.store r.name r.content).2.loaded[records.length]? =
        some (m.store r.name r.content).1 := h.length ▸ List.getElem?_concat_length
    have hentry : (records ++ [r])[records.length]? = some r := List.getElem?_concat_length
    rcases (hlaid.eq_notFound_iff hlast hentry).mp hfound with ⟨hzero, hblank⟩
    refine hr.2 hblank.1 r ?_ hblank
    rw [List.length_eq_zero_iff.mp hzero]
    rfl

lemma findFile_store (h : Laid m records) (hr : Findable records r) (hknown : ¬ m.Known r.name) :
    (m.store r.name r.content).2.findFile r.name = (m.store r.name r.content).1 := by
  rw [findFile_of_ne hr.1, find_store h (hr.not_mem h hknown), Option.getD_some]

/-! ## Loads -/

/-- A load that stores is a store under a name that is not known. -/
lemma Call.stores_eq {call : Call} (hpeak : call.peak m < 2 ^ 32) (hr : r ∈ call.stores m) :
    ¬ m.Known r.name ∧ call.run m = (m.store r.name r.content).2 ∧
      call.result m = (m.store r.name r.content).1 := by
  cases call with
  | pop => cases hr
  | loadFile disk path =>
      cases path with
      | none => cases hr
      | some path =>
          rw [stores] at hr
          rw [peak] at hpeak
          by_cases hknown : m.Known (cString path)
          · rw [if_pos hknown] at hr
            cases hr
          · rw [if_neg hknown] at hr hpeak
            rcases Option.map_eq_some_iff.mp hr with ⟨raw, hraw, rfl⟩
            have hload := @loadFileAt_unknown disk _ _ hknown fun raw hraw => by
              rwa [hraw] at hpeak
            rw [hraw] at hload
            exact ⟨hknown, congrArg Prod.snd hload, congrArg Prod.fst hload⟩
  | loadFromView view filename =>
      cases filename with
      | none => cases hr
      | some filename =>
          rw [stores] at hr
          rw [peak] at hpeak
          by_cases hknown : m.Known (cString filename)
          · rw [if_pos hknown] at hr
            cases hr
          · rw [if_neg hknown] at hr hpeak
            cases hr
            have hload := loadFromView_unknown hknown hpeak
            exact ⟨hknown, congrArg Prod.snd hload, congrArg Prod.fst hload⟩

lemma idempotent_iff (h : Laid m records) {call : Call} (hpeak : call.peak m < 2 ^ 32) :
    Idempotent m call ↔ ∀ r ∈ call.stores m, Findable records r := by
  refine forall₂_congr fun r hr => ?_
  rcases Call.stores_eq hpeak hr with ⟨hknown, hrun, hresult⟩
  rw [hrun, hresult, isLoaded_iff, known_store_iff h hknown, and_iff_left_iff_imp]
  intro hfindable
  have hfound := findFile_store h hfindable hknown
  have hagain := (known_store_iff h hknown).mpr hfindable
  refine ⟨fun disk path hpath => ?_, fun view filename hfilename => ?_⟩
  · rw [loadFileAt_known (hpath ▸ hagain), hpath, hfound]
  · rw [loadFromView_known (hfilename ▸ hagain), hfilename, hfound]

/-- One call keeps the names apart. -/
lemma nodup_entries (h : Laid m records) {call : Call} (hpeak : call.peak m < 2 ^ 32)
    (hfindable : ∀ r ∈ call.stores m, Findable records r)
    (hnodup : (records.map Record.name).Nodup) :
    ((call.entries m records).map Record.name).Nodup := by
  have hload : ((records ++ (call.stores m).toList).map Record.name).Nodup := by
    cases hstores : call.stores m with
    | none => simpa using hnodup
    | some r =>
        have hnew := (hfindable r hstores).not_mem h (Call.stores_eq hpeak hstores).1
        rw [Option.toList_some, List.map_append, List.map_singleton, ← List.concat_eq_append]
        exact hnodup.concat hnew
  cases call with
  | pop => exact hnodup.sublist ((List.dropLast_sublist _).map _)
  | loadFile disk path => exact hload
  | loadFromView view filename => exact hload

lemma nodup_runCalls {calls : List Call} (h : Laid m records) (hsmall : StaysSmall m calls)
    (hfindable : AllFindable m records calls) (hnodup : (records.map Record.name).Nodup) :
    ((runCalls m records calls).2.map Record.name).Nodup := by
  induction calls generalizing m records with
  | nil => exact hnodup
  | cons call calls ih =>
      exact ih (h.call hsmall.1) hsmall.2 hfindable.2
        (nodup_entries h hsmall.1 hfindable.1 hnodup)

/-- **When loading is idempotent.**  Behind every sequence of calls a load is idempotent exactly if
the entry it stores can be told from an absent one; and where this holds of all entries stored, no two
entries that are there have the same name. -/
theorem load_idempotent_iff (srcPath : Option (List Byte)) (calls : List Call)
    (hsmall : StaysSmall { srcPath := srcPath } calls) :
    let s := runCalls { srcPath := srcPath } [] calls
    (∀ call : Call, call.peak s.1 < 2 ^ 32 →
      (Idempotent s.1 call ↔ ∀ r ∈ call.stores s.1, Findable s.2 r)) ∧
    (AllFindable { srcPath := srcPath } [] calls → (s.1.loaded.map s.1.getName).Nodup) := by
  intro s
  have hlaid : Laid s.1 s.2 := (Laid.empty srcPath).runCalls hsmall
  refine ⟨fun call hpeak => idempotent_iff hlaid hpeak, fun hfindable => ?_⟩
  rw [hlaid.map_getName]
  exact nodup_runCalls (Laid.empty srcPath) hsmall hfindable List.nodup_nil

/-- A blank entry, loaded twice, is there twice. -/
theorem not_idempotent_sample :
    ¬ Idempotent {} (.loadFromView [] (some [])) ∧
      ¬ ((runCalls {} [] [.loadFromView [] (some []), .loadFromView [] (some [])]).1.loaded.map
        (runCalls {} [] [.loadFromView [] (some []), .loadFromView [] (some [])]).1.getName).Nodup := by
  refine ⟨fun h => ?_, by decide⟩
  exact absurd (h ⟨[], []⟩ rfl).1 (by decide)

theorem load_idempotent_sample :
    StaysSmall { srcPath := none } [.loadFromView (bytes "x") (some [])] ∧
      Idempotent (runCalls { srcPath := none } [] [.loadFromView (bytes "x") (some [])]).1
        (.loadFromView [] (some (bytes "a"))) := by
  have hsmall : StaysSmall { srcPath := none } [.loadFromView (bytes "x") (some [])] :=
    ⟨by decide, trivial⟩
  refine ⟨hsmall, ((load_idempotent_iff none _ hsmall).1 _ (by decide)).mpr ?_⟩
  rintro r ⟨⟩
  exact ⟨by decide, by decide⟩

end FileManager

end LogicCompiler
