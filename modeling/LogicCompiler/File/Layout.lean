import LogicCompiler.File.FileManager
import LogicCompiler.Library.Blocks

/-!
# The layout of the file store

`loadFile`, `loadFromView` and `pop` as they work on the byte buffer: room is made for the largest
entry possible, name and content are copied into it, line ends are rewritten in place, and the
buffer is cut to what is left.  The sizes are computed in `uint32_t`.

As long as the buffer stays below `2 ^ 32` bytes, also while it holds the room for a whole file,
this is the file store of the other modules (`loadFileAt_eq`), and the entries lie in it back to
back (`layout_of_run`).
-/

namespace LogicCompiler

namespace FileManager

variable {disk : Disk} {m : FileManager} {pre buf text : List Byte} {n r w : ℕ}

/-! ## The functions as they are written -/

/-- The newline pass on the `len` bytes at `base`: `r` reads, `w` writes. -/
def sanitizeAt (base len : ℕ) : ℕ → List Byte → ℕ → ℕ → List Byte × ℕ
  | 0, data, _, w => (data, w)
  | n + 1, data, r, w =>
      if r < len then
        let ch := data.getD (base + r) 0
        if ch = '\r'.toUInt8 then
          let data := data.set (base + w) '\n'.toUInt8
          let paired := r + 1 < len ∧ data.getD (base + (r + 1)) 0 = '\n'.toUInt8
          sanitizeAt base len n data (if paired then r + 2 else r + 1) (w + 1)
        else sanitizeAt base len n (data.set (base + w) ch) (r + 1) (w + 1)
      else (data, w)

/-- The string behind a `const char*`: up to the first `'\0'`. -/
def cString (s : List Byte) : List Byte := s.takeWhile (· != 0)

/-- `data.resize` for an entry of that name and content size, with the name copied in. -/
def makeRoom (m : FileManager) (name : List Byte) (contentLen : ℕ) : List Byte :=
  let nameLen := toUint32 name.length
  let currentOffset := toUint32 m.data.length
  let data := Blocks.resize 0 (currentOffset + toUint32 (nameLen + 1 + contentLen)) m.data
  let data := Blocks.write currentOffset (name.take nameLen) data
  Blocks.write (currentOffset + nameLen) [0] data

/-- `loadFile`; `none` is the null pointer. -/
def loadFileAt (disk : Disk) (m : FileManager) : Option (List Byte) → FileInfo × FileManager
  | none => (notFound, m)
  | some path =>
      let name := cString path
      let existing := m.findFile name
      if existing ≠ notFound then (existing, m)
      else
        match disk (m.fullPath name) with
        | none => (notFound, m)
        | some raw =>
            let nameLen := toUint32 name.length
            let rawContentLen := toUint32 raw.length
            let currentOffset := toUint32 m.data.length
            let contentDest := currentOffset + nameLen + 1
            let data := m.makeRoom name rawContentLen
            let data := Blocks.write contentDest (raw.take rawContentLen) data
            let (data, sanitizedLen) := sanitizeAt contentDest rawContentLen rawContentLen data 0 0
            let data :=
              Blocks.resize 0 (currentOffset + toUint32 (nameLen + 1 + sanitizedLen)) data
            let info : FileInfo :=
              { offsetBegin := currentOffset, nameSize := nameLen, fileSize := sanitizedLen }
            (info, { m with data := data, loaded := m.loaded ++ [info] })

/-- `loadFromView`; `none` is the null pointer. -/
def loadFromView (m : FileManager) (view : List Byte) :
    Option (List Byte) → FileInfo × FileManager
  | none => (notFound, m)
  | some filename =>
      let name := cString filename
      let existing := m.findFile name
      if existing ≠ notFound then (existing, m)
      else
        let nameLen := toUint32 name.length
        let contentLen := toUint32 view.length
        let currentOffset := toUint32 m.data.length
        let data := m.makeRoom name contentLen
        let data :=
          if 0 < contentLen then
            Blocks.write (currentOffset + nameLen + 1) (view.take contentLen) data
          else data
        let info : FileInfo :=
          { offsetBegin := currentOffset, nameSize := nameLen, fileSize := contentLen }
        (info, { m with data := data, loaded := m.loaded ++ [info] })

/-- The file loaded last is taken out again. -/
def pop (m : FileManager) : FileManager :=
  match m.loaded.getLast? with
  | none => m
  | some last =>
      { m with data := Blocks.resize 0 last.offsetBegin m.data, loaded := m.loaded.dropLast }

/-! ## The newline pass -/

/-- Every `"\r\n"` and every other `'\r'` a `'\n'`. -/
def normalizeNewlines : List Byte → List Byte
  | [] => []
  | [c] => [if c = '\r'.toUInt8 then '\n'.toUInt8 else c]
  | c :: d :: text =>
      if c = '\r'.toUInt8 then
        '\n'.toUInt8 ::
          (if d = '\n'.toUInt8 then normalizeNewlines text else normalizeNewlines (d :: text))
      else c :: normalizeNewlines (d :: text)

example : normalizeNewlines (bytes "a\r\n\rb\n\r") = bytes "a\n\nb\n\n" := by decide

lemma getD_add (pre buf : List Byte) (i : ℕ) : (pre ++ buf).getD (pre.length + i) 0 = buf.getD i 0 := by
  rw [List.getD_eq_getElem?_getD, List.getD_eq_getElem?_getD,
    List.getElem?_append_right (Nat.le_add_right _ _), Nat.add_sub_cancel_left]

lemma set_add (pre buf : List Byte) (i : ℕ) (c : Byte) :
    (pre ++ buf).set (pre.length + i) c = pre ++ buf.set i c := by
  rw [List.set_append_right _ _ (Nat.le_add_right _ _), Nat.add_sub_cancel_left]

/-- The pass leaves what stands before its part of the buffer alone. -/
lemma sanitizeAt_eq (pre : List Byte) (n r w : ℕ) (buf : List Byte) :
    sanitizeAt pre.length buf.length n (pre ++ buf) r w =
      (pre ++ (sanitize n buf r w).1, (sanitize n buf r w).2) := by
  induction n generalizing buf r w with
  | zero => rfl
  | succ n ih =>
      rw [sanitizeAt, sanitize]
      by_cases hr : r < buf.length
      · have hnext (c : Byte) (r w' : ℕ) := ih r w' (buf.set w c)
        simp only [List.length_set] at hnext
        simp only [if_pos hr, getD_add, set_add, List.length_set]
        split
        · exact hnext _ _ _
        · exact hnext _ _ _
      · rw [if_neg hr, if_neg hr]

lemma take_set (h : w < buf.length) (c : Byte) : (buf.set w c).take (w + 1) = buf.take w ++ [c] := by
  rw [List.take_add_one, List.take_set_of_le le_rfl, List.getElem?_set_self h]
  rfl

lemma drop_eq_getD_cons {i : ℕ} (h : i < buf.length) :
    buf.drop i = buf.getD i 0 :: buf.drop (i + 1) := by
  rw [List.drop_eq_getElem_cons h, List.getD_eq_getElem?_getD, List.getElem?_eq_getElem h]
  rfl

lemma normalizeNewlines_pair (text : List Byte) :
    normalizeNewlines ('\r'.toUInt8 :: '\n'.toUInt8 :: text) =
      '\n'.toUInt8 :: normalizeNewlines text := by
  rw [normalizeNewlines, if_pos rfl, if_pos rfl]

lemma normalizeNewlines_lone (h : text.head? ≠ some '\n'.toUInt8) :
    normalizeNewlines ('\r'.toUInt8 :: text) = '\n'.toUInt8 :: normalizeNewlines text := by
  cases text with
  | nil => rfl
  | cons d text => rw [normalizeNewlines, if_pos rfl, if_neg fun hd => h (by rw [hd]; rfl)]

lemma normalizeNewlines_other {c : Byte} (h : c ≠ '\r'.toUInt8) (text : List Byte) :
    normalizeNewlines (c :: text) = c :: normalizeNewlines text := by
  cases text with
  | nil =>
      show [if c = '\r'.toUInt8 then '\n'.toUInt8 else c] = [c]
      rw [if_neg h]
  | cons d text => rw [normalizeNewlines, if_neg h]

/-- **The pass in place computes the pass out of place.**  What it has not read yet it has not
written to either, since it never writes ahead of where it reads. -/
theorem sanitize_spec (buf : List Byte) (hw : w ≤ r) (hr : r ≤ buf.length) (hn : buf.length - r ≤ n) :
    (sanitize n buf r w).1.length = buf.length ∧ (sanitize n buf r w).2 ≤ buf.length ∧
      (sanitize n buf r w).1.take (sanitize n buf r w).2 =
        buf.take w ++ normalizeNewlines (buf.drop r) := by
  induction n generalizing buf r w with
  | zero =>
      have hend : r = buf.length := by omega
      rw [sanitize, hend, List.drop_length, normalizeNewlines, List.append_nil]
      exact ⟨rfl, hw.trans hr, rfl⟩
  | succ n ih =>
      rw [sanitize]
      by_cases hlt : r < buf.length
      · have hbound : w < buf.length := hw.trans_lt hlt
        -- one byte is written, and the unread part is still what it was
        have hstep (c : Byte) (r' : ℕ) (hr' : r < r' ∧ r' ≤ buf.length) :
            (sanitize n (buf.set w c) r' (w + 1)).1.length = buf.length ∧
              (sanitize n (buf.set w c) r' (w + 1)).2 ≤ buf.length ∧
                (sanitize n (buf.set w c) r' (w + 1)).1.take
                    (sanitize n (buf.set w c) r' (w + 1)).2 =
                  buf.take w ++ (c :: normalizeNewlines (buf.drop r')) := by
          have hrest : (buf.set w c).drop r' = buf.drop r' :=
            List.drop_set_of_lt (by omega)
          have hspec := ih (buf.set w c) (r := r') (w := w + 1) (by omega)
            (by rw [List.length_set]; exact hr'.2) (by rw [List.length_set]; omega)
          rwa [List.length_set, take_set hbound, hrest, List.append_assoc,
            List.singleton_append] at hspec
        simp only [if_pos hlt, List.length_set]
        rw [drop_eq_getD_cons hlt]
        by_cases hc : buf.getD r 0 = '\r'.toUInt8
        · rw [if_pos hc, hc]
          have hahead : (buf.set w '\n'.toUInt8).getD (r + 1) 0 = buf.getD (r + 1) 0 := by
            rw [List.getD_eq_getElem?_getD, List.getElem?_set_ne (by omega),
              ← List.getD_eq_getElem?_getD]
          rw [hahead]
          by_cases hpair : r + 1 < buf.length ∧ buf.getD (r + 1) 0 = '\n'.toUInt8
          · have hbehind : buf.drop (r + 1) = '\n'.toUInt8 :: buf.drop (r + 2) := by
              rw [drop_eq_getD_cons hpair.1, hpair.2]
            rw [if_pos hpair, hbehind, normalizeNewlines_pair]
            exact hstep _ _ ⟨by omega, hpair.1⟩
          · have hlone : (buf.drop (r + 1)).head? ≠ some '\n'.toUInt8 := by
              intro hsome
              have hin : r + 1 < buf.length := by
                rw [List.head?_drop] at hsome
                exact (List.getElem?_eq_some_iff.mp hsome).1
              rw [drop_eq_getD_cons hin] at hsome
              exact hpair ⟨hin, Option.some.inj hsome⟩
            rw [if_neg hpair, normalizeNewlines_lone hlone]
            exact hstep _ _ ⟨by omega, hlt⟩
        · rw [if_neg hc, normalizeNewlines_other hc]
          exact hstep _ _ ⟨by omega, hlt⟩
      · have hend : r = buf.length := by omega
        rw [if_neg hlt, hend, List.drop_length, normalizeNewlines, List.append_nil]
        exact ⟨rfl, hw.trans hr, rfl⟩

lemma sanitize_eq (raw : List Byte) :
    (sanitize raw.length raw 0 0).1.take (sanitize raw.length raw 0 0).2 =
      normalizeNewlines raw := by
  have hspec := (sanitize_spec (n := raw.length) raw le_rfl (Nat.zero_le _) le_rfl).2.2
  rwa [List.take_zero, List.nil_append, List.drop_zero] at hspec

/-! ## The functions as entries behind one another -/

/-- Room for an entry: its name is there, its content is not yet. -/
lemma makeRoom_eq {name : List Byte} {contentLen : ℕ}
    (h : m.data.length + (name.length + 1 + contentLen) < 2 ^ 32) :
    m.makeRoom name contentLen = (m.data ++ name ++ [0]) ++ List.replicate contentLen 0 := by
  have hroom : Blocks.resize 0 (m.data.length + (name.length + 1 + contentLen)) m.data =
      m.data ++ (List.replicate name.length 0 ++ List.replicate (1 + contentLen) 0) := by
    rw [Blocks.resize_add, List.replicate_append_replicate, Nat.add_assoc]
  have hname : m.data ++ (name ++ List.replicate (1 + contentLen) 0) =
      (m.data ++ name) ++ (List.replicate 1 0 ++ List.replicate contentLen 0) := by
    rw [List.replicate_append_replicate, List.append_assoc]
  rw [makeRoom, toUint32_eq (by omega), toUint32_eq (by omega), toUint32_eq (by omega), hroom,
    List.take_length, Blocks.write_append rfl (by simp), hname,
    Blocks.write_append (by simp) (by simp), ← List.append_assoc]

/-- `loadFile` of the store keeps the file with its line ends rewritten. -/
lemma loadFile_eq (disk : Disk) (m : FileManager) (path : List Byte) :
    loadFile disk m path =
      if m.findFile (cString path) ≠ notFound then (m.findFile (cString path), m)
      else
        match disk (m.fullPath (cString path)) with
        | none => (notFound, m)
        | some raw => m.store (cString path) (normalizeNewlines raw) := by
  simp only [← sanitize_eq]
  rfl

/-- The room that is left behind a shorter content is given back. -/
lemma resize_entry {name content spare : List Byte}
    (h : m.data.length + (name.length + 1 + content.length) < 2 ^ 32) :
    Blocks.resize 0 (m.data.length + toUint32 (name.length + 1 + content.length))
      ((m.data ++ name ++ [0]) ++ (content ++ spare)) = m.data ++ name ++ [0] ++ content := by
  have hlen : m.data.length + (name.length + 1 + content.length) =
      (m.data ++ name ++ [0] ++ content).length := by
    simp only [List.length_append, List.length_singleton]
    omega
  rw [toUint32_eq (by omega), hlen, ← List.append_assoc, Blocks.resize_append]

/-- **`loadFile` on the buffer is `loadFile` of the store.** -/
theorem loadFileAt_eq {path : List Byte}
    (h : ∀ raw ∈ disk (m.fullPath (cString path)),
      m.data.length + ((cString path).length + 1 + raw.length) < 2 ^ 32) :
    loadFileAt disk m (some path) = loadFile disk m path := by
  rw [loadFileAt, loadFile_eq]
  by_cases hknown : m.findFile (cString path) ≠ notFound
  · rw [if_pos hknown, if_pos hknown]
  · rw [if_neg hknown, if_neg hknown]
    cases hraw : disk (m.fullPath (cString path)) with
    | none => rfl
    | some raw =>
        have hsmall := h raw hraw
        rcases sanitize_spec (n := raw.length) raw (w := 0) le_rfl (Nat.zero_le _) le_rfl
          with ⟨hlen, hle, -⟩
        have hspec := sanitize_eq raw
        have hcontent : (normalizeNewlines raw).length = (sanitize raw.length raw 0 0).2 := by
          rw [← hspec, List.length_take, hlen, Nat.min_eq_left hle]
        have hsplit : (sanitize raw.length raw 0 0).1 =
            normalizeNewlines raw ++
              (sanitize raw.length raw 0 0).1.drop (sanitize raw.length raw 0 0).2 := by
          rw [← hspec, List.take_append_drop]
        have hdest : m.data.length + (cString path).length + 1 =
            (m.data ++ cString path ++ [0]).length := by simp [Nat.add_assoc]
        have hpass := sanitizeAt_eq (m.data ++ cString path ++ [0]) raw.length 0 0 raw
        dsimp only
        rw [toUint32_eq (by omega), toUint32_eq (by omega), toUint32_eq (by omega),
          makeRoom_eq hsmall, List.take_length, hdest,
          ← List.append_nil (List.replicate raw.length 0),
          Blocks.write_append rfl (by simp), List.append_nil, hpass, ← hcontent, hsplit]
        rw [resize_entry (by omega), store]

/-- **`loadFromView` on the buffer stores the view.** -/
theorem loadFromView_eq {view filename : List Byte}
    (h : m.data.length + ((cString filename).length + 1 + view.length) < 2 ^ 32) :
    m.loadFromView view (some filename) =
      if m.findFile (cString filename) ≠ notFound then (m.findFile (cString filename), m)
      else m.store (cString filename) view := by
  rw [loadFromView]
  by_cases hknown : m.findFile (cString filename) ≠ notFound
  · rw [if_pos hknown, if_pos hknown]
  · rw [if_neg hknown, if_neg hknown]
    have hdest : m.data.length + (cString filename).length + 1 =
        (m.data ++ cString filename ++ [0]).length := by simp [Nat.add_assoc]
    have hwrite :
        (if 0 < view.length then
          Blocks.write (m.data.length + (cString filename).length + 1) view
            ((m.data ++ cString filename ++ [0]) ++ List.replicate view.length 0)
        else (m.data ++ cString filename ++ [0]) ++ List.replicate view.length 0) =
          m.data ++ cString filename ++ [0] ++ view := by
      have hroom := Blocks.write_room (0 : Byte) view [] hdest rfl
      rwa [List.append_nil, List.append_nil] at hroom
    dsimp only
    rw [toUint32_eq (by omega), toUint32_eq (by omega), toUint32_eq (by omega), makeRoom_eq h,
      List.take_length, hwrite, store]

/-! ## The entries -/

/-- An entry: the name it was loaded under and the content it was loaded with. -/
structure Record where
  name : List Byte
  content : List Byte

/-- Name, `'\0'`, content. -/
def Record.bytes (e : Record) : List Byte := e.name ++ [0] ++ e.content

variable {records : List Record} {e : Record} {f g : FileInfo} {i : ℕ}

/-- Where an entry ends. -/
def offsetEnd (f : FileInfo) : ℕ := f.offsetBegin + (f.nameSize + 1 + f.fileSize)

/-- The `FileInfo` of an entry that begins at `start`. -/
def Record.info (start : ℕ) (e : Record) : FileInfo :=
  { offsetBegin := start, nameSize := e.name.length, fileSize := e.content.length }

lemma Record.length_bytes (e : Record) : e.bytes.length = e.name.length + 1 + e.content.length := by
  rw [Record.bytes, List.length_append, List.length_append, List.length_singleton]

lemma offsetEnd_info (start : ℕ) (e : Record) :
    offsetEnd (e.info start) = start + e.bytes.length := by
  rw [e.length_bytes]
  rfl

/-- Where entry `i` begins. -/
def entryOffset (records : List Record) (i : ℕ) : ℕ :=
  Blocks.offset 0 (records.map Record.bytes) i

/-- The buffer holds the entries one behind the other, and `loaded` says where. -/
structure Laid (m : FileManager) (records : List Record) : Prop where
  data : m.data = (records.map Record.bytes).flatten
  loaded : ∀ i, m.loaded[i]? = records[i]?.map (Record.info (entryOffset records i))

namespace Laid

lemma empty (srcPath : Option (List Byte)) : Laid { srcPath := srcPath } [] :=
  ⟨rfl, fun _ => rfl⟩

lemma length (h : Laid m records) : m.loaded.length = records.length := by
  refine le_antisymm ?_ ?_
  · rw [← List.getElem?_eq_none_iff, h.loaded, List.getElem?_eq_none le_rfl]
    rfl
  · rw [← List.getElem?_eq_none_iff, ← Option.map_eq_none_iff (f := Record.info _), ← h.loaded]
    exact List.getElem?_eq_none le_rfl

lemma data_length (h : Laid m records) : m.data.length = entryOffset records records.length := by
  have hend := Blocks.offset_length [] (records.map Record.bytes)
  rw [List.length_map, List.nil_append, ← h.data] at hend
  exact hend.symm

lemma store (h : Laid m records) (e : Record) :
    Laid (m.store e.name e.content).2 (records ++ [e]) := by
  constructor
  · rw [FileManager.store, List.map_append, List.flatten_append, ← h.data, List.map_singleton,
      List.flatten_singleton, Record.bytes]
    simp only [List.append_assoc]
  · intro i
    have hstart : ∀ i ≤ records.length, entryOffset (records ++ [e]) i = entryOffset records i := by
      intro i hi
      rw [entryOffset, List.map_append, Blocks.offset_append 0 (by rwa [List.length_map]),
        entryOffset]
    show (m.loaded ++ [e.info m.data.length])[i]? = _
    rcases lt_trichotomy i records.length with hlt | heq | hgt
    · rw [List.getElem?_append_left (h.length ▸ hlt), List.getElem?_append_left hlt, h.loaded,
        hstart i hlt.le]
    · rw [heq, hstart _ le_rfl, ← h.data_length, ← h.length, List.getElem?_concat_length, h.length,
        List.getElem?_concat_length]
      rfl
    · rw [List.getElem?_eq_none (by rw [List.length_append, h.length]; exact hgt),
        List.getElem?_eq_none (by rw [List.length_append]; exact hgt)]
      rfl

lemma pop (h : Laid m records) : Laid m.pop records.dropLast := by
  rw [FileManager.pop]
  cases hlast : m.loaded.getLast? with
  | none =>
      have hnil : m.loaded = [] := List.getLast?_eq_none_iff.mp hlast
      have hrecords : records = [] := by
        rw [← List.length_eq_zero_iff, ← h.length, hnil]
        rfl
      rw [hrecords] at h ⊢
      exact h
  | some last =>
      have hbegin : last.offsetBegin = entryOffset records (records.length - 1) := by
        rw [List.getLast?_eq_getElem?, h.loaded, h.length] at hlast
        rcases Option.map_eq_some_iff.mp hlast with ⟨e, -, rfl⟩
        rfl
      constructor
      · have hcut := Blocks.resize_offset (0 : Byte) [] (records.map Record.bytes)
          (i := records.length - 1) (by rw [List.length_map]; exact Nat.sub_le _ _)
        rw [List.nil_append, List.nil_append, ← h.data, ← List.map_take,
          ← List.dropLast_eq_take] at hcut
        show Blocks.resize 0 last.offsetBegin m.data = _
        rw [← hcut, hbegin]
        rfl
      · intro i
        have hlen := h.length
        show m.loaded.dropLast[i]? = _
        rw [List.dropLast_eq_take, List.dropLast_eq_take, List.getElem?_take, List.getElem?_take,
          h.length, h.loaded]
        split
        · next hi =>
            rw [entryOffset, entryOffset, List.map_take, Blocks.offset_take 0 hi.le]
        · rfl

/-- An entry and what is known of it. -/
lemma entry (h : Laid m records) (hf : m.loaded[i]? = some f) :
    ∃ e, records[i]? = some e ∧ f = e.info (entryOffset records i) := by
  rw [h.loaded] at hf
  rcases Option.map_eq_some_iff.mp hf with ⟨e, he, rfl⟩
  exact ⟨e, he, rfl⟩

lemma next (h : Laid m records) (hf : m.loaded[i]? = some f) :
    offsetEnd f = entryOffset records (i + 1) := by
  rcases h.entry hf with ⟨e, he, rfl⟩
  rw [offsetEnd_info, entryOffset, entryOffset,
    Blocks.offset_succ 0 (b := e.bytes) (by rw [List.getElem?_map, he]; rfl)]

/-- The bytes of the store from an entry on. -/
lemma drop (h : Laid m records) (he : records[i]? = some e) :
    ∃ rest, m.data.drop (entryOffset records i) = e.bytes ++ rest := by
  have hblock : (records.map Record.bytes)[i]? = some e.bytes := by
    rw [List.getElem?_map, he]
    rfl
  have hdrop := Blocks.drop_offset_of_getElem? [] hblock
  rw [List.nil_append, ← h.data] at hdrop
  exact ⟨_, hdrop⟩

end Laid

/-! ## Sequences of calls -/

/-- The calls that change a file manager. -/
inductive Call
  | loadFile (disk : Disk) (path : Option (List Byte))
  | loadFromView (view : List Byte) (filename : Option (List Byte))
  | pop

/-- What is stored under the name is found, and not taken for `_NOT_FOUND`. -/
def Known (m : FileManager) (name : List Byte) : Prop := m.findFile name ≠ notFound

instance (m : FileManager) (name : List Byte) : Decidable (m.Known name) :=
  inferInstanceAs (Decidable (_ ≠ _))

lemma loadFileAt_known {path : List Byte} (h : m.Known (cString path)) :
    m.loadFileAt disk (some path) = (m.findFile (cString path), m) := if_pos h

lemma loadFileAt_unknown {path : List Byte} (h : ¬ m.Known (cString path))
    (hsmall : ∀ raw ∈ disk (m.fullPath (cString path)),
      m.data.length + ((cString path).length + 1 + raw.length) < 2 ^ 32) :
    m.loadFileAt disk (some path) =
      match disk (m.fullPath (cString path)) with
      | none => (notFound, m)
      | some raw => m.store (cString path) (normalizeNewlines raw) := by
  rw [loadFileAt_eq hsmall, loadFile_eq]
  exact if_neg h

lemma loadFromView_known {filename view : List Byte} (h : m.Known (cString filename)) :
    m.loadFromView view (some filename) = (m.findFile (cString filename), m) := if_pos h

lemma loadFromView_unknown {filename view : List Byte} (h : ¬ m.Known (cString filename))
    (hsmall : m.data.length + ((cString filename).length + 1 + view.length) < 2 ^ 32) :
    m.loadFromView view (some filename) = m.store (cString filename) view := by
  rw [loadFromView_eq hsmall]
  exact if_neg h

namespace Call

/-- What a call leaves behind. -/
def run (m : FileManager) : Call → FileManager
  | loadFile disk path => (m.loadFileAt disk path).2
  | loadFromView view filename => (m.loadFromView view filename).2
  | pop => m.pop

/-- The entry that the call stores. -/
def stores (m : FileManager) : Call → Option Record
  | loadFile disk (some path) =>
      if m.Known (cString path) then none
      else (disk (m.fullPath (cString path))).map fun raw =>
        { name := cString path, content := normalizeNewlines raw }
  | loadFromView view (some filename) =>
      if m.Known (cString filename) then none
      else some { name := cString filename, content := view }
  | loadFile _ none | loadFromView _ none | pop => none

/-- The largest size that the call gives to the buffer. -/
def peak (m : FileManager) : Call → ℕ
  | loadFile disk (some path) =>
      if m.Known (cString path) then m.data.length
      else
        match disk (m.fullPath (cString path)) with
        | none => m.data.length
        | some raw => m.data.length + ((cString path).length + 1 + raw.length)
  | loadFromView view (some filename) =>
      if m.Known (cString filename) then m.data.length
      else m.data.length + ((cString filename).length + 1 + view.length)
  | loadFile _ none | loadFromView _ none | pop => m.data.length

/-- The entries behind the call: a load adds its own, `pop` drops the last. -/
def entries (m : FileManager) (records : List Record) : Call → List Record
  | pop => records.dropLast
  | call => records ++ (call.stores m).toList

end Call

/-- The state behind a sequence of calls, and the entries that are then in the store. -/
def runCalls (m : FileManager) (records : List Record) : List Call → FileManager × List Record
  | [] => (m, records)
  | call :: calls => runCalls (call.run m) (call.entries m records) calls

/-- All along the sequence of calls the buffer stays below `2 ^ 32` bytes. -/
def StaysSmall (m : FileManager) : List Call → Prop
  | [] => True
  | call :: calls => call.peak m < 2 ^ 32 ∧ StaysSmall (call.run m) calls

lemma Laid.call (h : Laid m records) {call : Call} (hpeak : call.peak m < 2 ^ 32) :
    Laid (call.run m) (call.entries m records) := by
  cases call with
  | pop => exact h.pop
  | loadFile disk path =>
      cases path with
      | none => simpa [Call.run, loadFileAt, Call.entries, Call.stores] using h
      | some path =>
          show Laid (m.loadFileAt disk (some path)).2
            (records ++ (Call.stores m (.loadFile disk (some path))).toList)
          rw [Call.stores]
          rw [Call.peak] at hpeak
          by_cases hknown : m.Known (cString path)
          · rw [loadFileAt_known hknown, if_pos hknown]
            simpa using h
          · rw [if_neg hknown] at hpeak ⊢
            rw [loadFileAt_unknown hknown fun raw hraw => by rwa [hraw] at hpeak]
            cases disk (m.fullPath (cString path)) with
            | none => simpa using h
            | some raw =>
                exact h.store { name := cString path, content := normalizeNewlines raw }
  | loadFromView view filename =>
      cases filename with
      | none => simpa [Call.run, loadFromView, Call.entries, Call.stores] using h
      | some filename =>
          show Laid (m.loadFromView view (some filename)).2
            (records ++ (Call.stores m (.loadFromView view (some filename))).toList)
          rw [Call.stores]
          rw [Call.peak] at hpeak
          by_cases hknown : m.Known (cString filename)
          · rw [loadFromView_known hknown, if_pos hknown]
            simpa using h
          · rw [if_neg hknown] at hpeak ⊢
            rw [loadFromView_unknown hknown hpeak]
            exact h.store { name := cString filename, content := view }

lemma Laid.runCalls {calls : List Call} (h : Laid m records) (hsmall : StaysSmall m calls) :
    Laid (runCalls m records calls).1 (runCalls m records calls).2 := by
  induction calls generalizing m records with
  | nil => exact h
  | cons call calls ih => exact ih (h.call hsmall.1) hsmall.2

/-! ## The layout -/

/-- The entries of the store, as a caller sees them: one behind the other from the beginning of the
buffer to its end, and each with the name and the content it was loaded with. -/
structure Layout (m : FileManager) (records : List Record) : Prop where
  count : m.loaded.length = records.length
  first : ∀ f ∈ m.loaded.head?, f.offsetBegin = 0
  adjacent : ∀ (i : ℕ) (f g : FileInfo), m.loaded[i]? = some f → m.loaded[i + 1]? = some g →
    g.offsetBegin = offsetEnd f
  last : ∀ f ∈ m.loaded.getLast?, offsetEnd f = m.data.length
  nothing : m.loaded = [] → m.data = []
  entry : ∀ (i : ℕ) (f : FileInfo) (e : Record), m.loaded[i]? = some f → records[i]? = some e →
    m.read { offset := f.offsetBegin, size := offsetEnd f - f.offsetBegin } =
      e.name ++ [0] ++ e.content
  name : ∀ (i : ℕ) (f : FileInfo) (e : Record), m.loaded[i]? = some f → records[i]? = some e →
    m.getName f = e.name
  content : ∀ (i : ℕ) (f : FileInfo) (e : Record), m.loaded[i]? = some f → records[i]? = some e →
    m.read f.content = e.content

/-- The call of `loadFile` fails: the path is null, or nothing is stored under it and the file
cannot be opened. -/
def LoadFails (disk : Disk) (m : FileManager) : Option (List Byte) → Prop
  | none => True
  | some path => ¬ m.Known (cString path) ∧ disk (m.fullPath (cString path)) = none

lemma Laid.layout (h : Laid m records) : Layout m records := by
  have hread {i : ℕ} {f : FileInfo} {e : Record} (hf : m.loaded[i]? = some f)
      (he : records[i]? = some e) :
      f = e.info (entryOffset records i) ∧ ∃ rest, m.data.drop f.offsetBegin = e.bytes ++ rest := by
    rcases h.entry hf with ⟨e', he', rfl⟩
    obtain rfl : e = e' := Option.some.inj (he.symm.trans he')
    exact ⟨rfl, h.drop he⟩
  refine ⟨h.length, fun f hf => ?_, fun i f g hf hg => ?_, fun f hf => ?_, fun hnil => ?_,
    fun i f e hf he => ?_, fun i f e hf he => ?_, fun i f e hf he => ?_⟩
  · rw [List.head?_eq_getElem?] at hf
    rcases h.entry hf with ⟨e, -, rfl⟩
    exact Blocks.offset_zero 0 _
  · rcases h.entry hg with ⟨e, -, rfl⟩
    exact (h.next hf).symm
  · rw [List.getLast?_eq_getElem?] at hf
    have hlt := (List.getElem?_eq_some_iff.mp hf).1
    rw [h.next hf, h.data_length, ← h.length, Nat.sub_add_cancel (Nat.zero_lt_of_lt hlt)]
  · rw [← List.length_eq_zero_iff, h.data_length, ← h.length, hnil]
    exact Blocks.offset_zero 0 _
  · rcases hread hf he with ⟨rfl, rest, hrest⟩
    rw [read, hrest, offsetEnd_info, Record.info, Nat.add_sub_cancel_left, List.take_left]
    rfl
  · rcases hread hf he with ⟨rfl, rest, hrest⟩
    rw [getName, read, hrest, Record.bytes, List.append_assoc, List.append_assoc]
    exact List.take_left
  · rcases hread hf he with ⟨rfl, rest, hrest⟩
    have hdrop : m.data.drop (e.info (entryOffset records i)).content.offset = e.content ++ rest := by
      have hname : (e.name ++ [0]).length = e.name.length + 1 := by simp
      show m.data.drop ((e.info (entryOffset records i)).offsetBegin + e.name.length + 1) = _
      rw [Nat.add_assoc, ← List.drop_drop, hrest, Record.bytes, ← hname, List.append_assoc,
        List.drop_left]
    rw [read, hdrop]
    exact List.take_left

lemma loadFileAt_of_fails {path : Option (List Byte)} (h : LoadFails disk m path) :
    m.loadFileAt disk path = (notFound, m) := by
  cases path with
  | none => rfl
  | some path =>
      rcases h with ⟨hknown, hnone⟩
      rw [loadFileAt_unknown hknown (by simp [hnone]), hnone]

/-- **The layout of the file store behind every sequence of calls.** -/
theorem layout_of_run (srcPath : Option (List Byte)) (calls : List Call)
    (hsmall : StaysSmall { srcPath := srcPath } calls) :
    let s := runCalls { srcPath := srcPath } [] calls
    Layout s.1 s.2 ∧
      ∀ disk path, LoadFails disk s.1 path → s.1.loadFileAt disk path = (notFound, s.1) :=
  ⟨((Laid.empty srcPath).runCalls hsmall).layout, fun _ _ hfails => loadFileAt_of_fails hfails⟩

/-- Two files, the second one popped and its room used again. -/
def sampleCalls : List Call :=
  [.loadFile (fun _ => some (bytes "x\r\ny")) (some (bytes "a")),
    .loadFromView (bytes "long content") (some (bytes "b")), .pop,
    .loadFile (fun _ => none) (some (bytes "missing")), .loadFromView [] (some (bytes "c"))]

theorem layout_of_sample :
    StaysSmall { srcPath := none } sampleCalls ∧
      (runCalls { srcPath := none } [] sampleCalls).1.data = bytes "a" ++ [0] ++ bytes "x\ny" ++
        bytes "c" ++ [0] ∧
      Layout (runCalls { srcPath := none } [] sampleCalls).1
        (runCalls { srcPath := none } [] sampleCalls).2 := by
  have hsmall : StaysSmall { srcPath := none } sampleCalls :=
    ⟨by decide, by decide, by decide, by decide, by decide, trivial⟩
  exact ⟨hsmall, by decide, (layout_of_run none sampleCalls hsmall).1⟩

end FileManager

end LogicCompiler
