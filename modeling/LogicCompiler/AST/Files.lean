import LogicCompiler.AST.Defs
import LogicCompiler.Library.Serial

/-!
# Syntax trees in files

`ASTManager::saveToFile` and `ASTManager::loadFromFile` of `common/AST/AST_manager.cpp`.  A file is the
number of nodes in four bytes and the nodes as they lie in memory, 24 bytes each.  The tree that is
loaded into is cleared before the first node is read and grows with every node that is, so that a file
that ends too early leaves the nodes it has in it (`loadFromFile_spec`).
-/

namespace LogicCompiler

/-- `sizeof(Node)`. -/
def nodeSize : ℕ := 24

/-- A node as it lies in memory: kind, qualifiers and the reserved half word, the source offset, the
source length with two bytes of padding, and the three words of the payload. -/
structure NodeImage where
  bytes : List Byte
  length_bytes : bytes.length = nodeSize
  deriving DecidableEq

namespace NodeImage

/-- `reinterpret_cast<char*>(&n)` the other way round: a node out of as many bytes. -/
def ofBytes (bytes : List Byte) : NodeImage where
  bytes := bytes.take nodeSize ++ List.replicate (nodeSize - bytes.length) 0
  length_bytes := by
    rw [List.length_append, List.length_take, List.length_replicate]
    omega

lemma ofBytes_bytes (n : NodeImage) : ofBytes n.bytes = n := by
  rcases n with ⟨bytes, hlen⟩
  simp only [ofBytes, mk.injEq]
  rw [List.take_of_length_le hlen.le, hlen, Nat.sub_self, List.replicate_zero, List.append_nil]

end NodeImage

/-! ## The fields in memory -/

/-- The five bits. -/
def Qualifiers.bits (q : Qualifiers) : ℕ :=
  q.isConstexpr.toNat + 2 * q.isConst.toNat + 4 * q.isStatic.toNat + 8 * q.isInline.toNat +
    16 * q.isAuto.toNat

lemma Qualifiers.bits_lt (q : Qualifiers) : q.bits < 256 ^ 1 := by
  rcases q with ⟨a, b, c, d, e⟩
  revert a b c d e
  decide

lemma Qualifiers.bits_inj {q q' : Qualifiers} (h : q.bits = q'.bits) : q = q' := by
  rcases q with ⟨a, b, c, d, e⟩
  rcases q' with ⟨a', b', c', d', e'⟩
  revert a b c d e a' b' c' d' e'
  decide

/-- The fields are those of their types. -/
structure Node.Fits (n : Node) : Prop where
  sourceOffset : n.sourceOffset < 256 ^ 4
  sourceLength : n.sourceLength < 256 ^ 2
  word0 : n.data.word0 < 256 ^ 4
  word1 : n.data.word1 < 256 ^ 4
  word2 : n.data.word2 < 256 ^ 4

/-- A node of the other modules in memory. -/
def Node.image (n : Node) : NodeImage where
  bytes := Serial.encode 1 n.kind.ctorIdx ++ Serial.encode 1 n.qualifiers.bits ++ [0, 0] ++
    Serial.encode 4 n.sourceOffset ++ Serial.encode 2 n.sourceLength ++ [0, 0] ++
    Serial.encode 4 n.data.word0 ++ Serial.encode 4 n.data.word1 ++ Serial.encode 4 n.data.word2
  length_bytes := by simp [nodeSize]

/-- **A node is known from its memory.** -/
theorem Node.image_inj {n n' : Node} (h : n.Fits) (h' : n'.Fits) (heq : n.image = n'.image) :
    n = n' := by
  have hbytes : n.image.bytes = n'.image.bytes := by rw [heq]
  have hkind (k : NodeKind) : k.ctorIdx < 256 ^ 1 := by cases k <;> decide
  simp only [image] at hbytes
  -- the fields one by one, the last one first
  obtain ⟨hbytes, hword2⟩ := List.append_inj' hbytes (by simp)
  obtain ⟨hbytes, hword1⟩ := List.append_inj' hbytes (by simp)
  obtain ⟨hbytes, hword0⟩ := List.append_inj' hbytes (by simp)
  obtain ⟨hbytes, -⟩ := List.append_inj' hbytes (by simp)
  obtain ⟨hbytes, hlength⟩ := List.append_inj' hbytes (by simp)
  obtain ⟨hbytes, hoffset⟩ := List.append_inj' hbytes (by simp)
  obtain ⟨hbytes, -⟩ := List.append_inj' hbytes (by simp)
  obtain ⟨hbytes, hqualifiers⟩ := List.append_inj' hbytes (by simp)
  have hkinds : n.kind = n'.kind := by
    rw [← NodeKind.ofNat_ctorIdx n.kind, Serial.encode_inj (hkind _) (hkind _) hbytes,
      NodeKind.ofNat_ctorIdx]
  have hquals := Qualifiers.bits_inj (Serial.encode_inj n.qualifiers.bits_lt n'.qualifiers.bits_lt
    hqualifiers)
  have hoffsets := Serial.encode_inj h.sourceOffset h'.sourceOffset hoffset
  have hlengths := Serial.encode_inj h.sourceLength h'.sourceLength hlength
  have h0 := Serial.encode_inj h.word0 h'.word0 hword0
  have h1 := Serial.encode_inj h.word1 h'.word1 hword1
  have h2 := Serial.encode_inj h.word2 h'.word2 hword2
  have hdata : n.data = n'.data :=
    calc n.data = ⟨n.data.word0, n.data.word1, n.data.word2⟩ := rfl
      _ = ⟨n'.data.word0, n'.data.word1, n'.data.word2⟩ := by rw [h0, h1, h2]
      _ = n'.data := rfl
  calc n = ⟨n.kind, n.qualifiers, n.sourceOffset, n.sourceLength, n.data⟩ := rfl
    _ = ⟨n'.kind, n'.qualifiers, n'.sourceOffset, n'.sourceLength, n'.data⟩ := by
        rw [hkinds, hquals, hoffsets, hlengths, hdata]
    _ = n' := rfl

namespace ASTManager

/-! ## The functions -/

/-- The nodes of `ASTTree::nodes` as they lie in memory. -/
abbrev TreeImage := List NodeImage

/-- The bytes that `saveToFile` writes. -/
def saveToFile (tree : TreeImage) : List Byte :=
  let nodeCount := toUint32 tree.length
  Serial.encode 4 nodeCount ++ (tree.take nodeCount).flatMap NodeImage.bytes

/-- `loadFromFile`: what it returns, and what it leaves in `outTree`; `none` is a file that cannot be
opened. -/
def loadFromFile (outTree : TreeImage) : Option (List Byte) → Bool × TreeImage
  | none => (false, outTree)
  | some file =>
      if file.length < 4 then (false, outTree)
      else
        let nodeCount := Serial.decode (file.take 4)
        Serial.readRecords nodeSize NodeImage.ofBytes nodeCount (file.drop 4) []

/-! ## What is loaded -/

/-- The nodes that a file holds to the end. -/
def nodesOf (file : List Byte) : TreeImage :=
  Serial.recordsOf nodeSize NodeImage.ofBytes (file.drop 4)

/-- The number that a file announces. -/
def nodeCount (file : List Byte) : ℕ := Serial.decode (file.take 4)

variable {outTree tree : TreeImage} {file : List Byte}

lemma loadFromFile_short (h : file.length < 4) :
    loadFromFile outTree (some file) = (false, outTree) := if_pos h

/-- Behind the number the tree is the nodes there are, up to that number. -/
lemma loadFromFile_eq (h : ¬ file.length < 4) :
    loadFromFile outTree (some file) =
      (decide (nodeCount file ≤ (nodesOf file).length), (nodesOf file).take (nodeCount file)) := by
  rw [loadFromFile, if_neg h]
  exact Serial.readRecords_eq (by decide) _ _ _

lemma saveToFile_eq (h : tree.length < 2 ^ 32) :
    saveToFile tree = Serial.encode 4 tree.length ++ tree.flatMap NodeImage.bytes := by
  rw [saveToFile, toUint32_eq h, List.take_length]

lemma nodeCount_saveToFile (h : tree.length < 2 ^ 32) : nodeCount (saveToFile tree) = tree.length := by
  have htake := @List.take_left _ (Serial.encode 4 tree.length) (tree.flatMap NodeImage.bytes)
  rw [Serial.length_encode] at htake
  rw [nodeCount, saveToFile_eq h, htake]
  exact Serial.decode_encode h

lemma nodesOf_saveToFile (h : tree.length < 2 ^ 32) : nodesOf (saveToFile tree) = tree := by
  have hdrop := @List.drop_left _ (Serial.encode 4 tree.length) (tree.flatMap NodeImage.bytes)
  rw [Serial.length_encode] at hdrop
  rw [nodesOf, saveToFile_eq h, hdrop]
  exact Serial.recordsOf_flatMap (by decide) NodeImage.length_bytes NodeImage.ofBytes_bytes tree

/-- A call that returns `false` leaves the tree as it was. -/
def AllOrNothing (outTree : TreeImage) (file : Option (List Byte)) : Prop :=
  (loadFromFile outTree file).1 = false → (loadFromFile outTree file).2 = outTree

/-- **Saving and loading a tree.**  What was saved is loaded.  A load that fails leaves the tree as it
was exactly if the file ends within the number of nodes, or if the tree consisted of the very nodes
that the file holds to the end. -/
theorem loadFromFile_spec (outTree : TreeImage) :
    (∀ tree : TreeImage, tree.length < 2 ^ 32 →
      loadFromFile outTree (some (saveToFile tree)) = (true, tree)) ∧
    ∀ file : List Byte, AllOrNothing outTree (some file) ↔
      (4 ≤ file.length → (nodesOf file).length < nodeCount file → outTree = nodesOf file) := by
  constructor
  · intro tree hlen
    have hlong : ¬ (saveToFile tree).length < 4 := by
      rw [saveToFile_eq hlen, List.length_append, Serial.length_encode]
      omega
    rw [loadFromFile_eq hlong, nodeCount_saveToFile hlen, nodesOf_saveToFile hlen, List.take_length,
      decide_eq_true le_rfl]
  · intro file
    rw [AllOrNothing]
    by_cases hshort : file.length < 4
    · rw [loadFromFile_short hshort]
      exact iff_of_true (fun _ => rfl) fun hlong => absurd hlong (Nat.not_le_of_lt hshort)
    · rw [loadFromFile_eq hshort, decide_eq_false_iff_not, Nat.not_le]
      have hlong := Nat.le_of_not_lt hshort
      constructor
      · intro hkept _ hfew
        have heq := hkept hfew
        rwa [List.take_of_length_le hfew.le, eq_comm] at heq
      · intro hsame hfew
        rw [List.take_of_length_le hfew.le]
        exact (hsame hlong hfew).symm

/-- One node is announced and none is there: the tree is empty behind the call. -/
theorem not_allOrNothing_sample : ¬ AllOrNothing [NodeImage.ofBytes []] (some [1, 0, 0, 0]) :=
  fun h => absurd (h rfl) (by decide)

end ASTManager

end LogicCompiler
