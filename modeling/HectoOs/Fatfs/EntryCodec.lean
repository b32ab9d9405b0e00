import HectoOs.Fatfs.DirEntry

/-! # Reading and writing entries

What an entry reads as is a function of its 32 bytes, and the bytes it is written as are a function
of the entry. Each function undoes the other, but for the two bits of the attributes that have no
name.
-/

open HectoOs.Lib

namespace HectoOs.Fatfs

/-! ## The bytes of an entry -/

def DirFileEntryData.bytes (d : DirFileEntryData) : List Byte :=
  d.name.toList ++ leBytes 1 d.attrs.bits.toNat ++ leBytes 1 d.reserved_0.toNat ++
    leBytes 1 d.create_time_0.toNat ++
    leBytes 2 d.create_time_1.toNat ++ leBytes 2 d.create_date.toNat ++
      leBytes 2 d.access_date.toNat ++
    leBytes 2 d.first_cluster_hi.toNat ++ leBytes 2 d.modify_time.toNat ++
      leBytes 2 d.modify_date.toNat ++
    leBytes 2 d.first_cluster_lo.toNat ++ leBytes 4 d.size.toNat

def DirLfnEntryData.bytes (d : DirLfnEntryData) : List Byte :=
  leBytes 1 d.order.toNat ++ bytes_of_words d.name_0.toList ++ leBytes 1 d.attrs.bits.toNat ++
    leBytes 1 d.entry_type.toNat ++
    leBytes 1 d.checksum.toNat ++ bytes_of_words d.name_1.toList ++ leBytes 2 d.reserved_0.toNat ++
      bytes_of_words d.name_2.toList

def DirEntryData.bytes : DirEntryData → List Byte
  | .File file => file.bytes
  | .Lfn lfn => lfn.bytes

/-- The attributes say which kind of entry it is. -/
def DirEntryData.Sane : DirEntryData → Prop
  | .File file => file.attrs.contains .LFN = false
  | .Lfn lfn => lfn.attrs.contains .LFN = true

@[simp] theorem DirFileEntryData.length_bytes (d : DirFileEntryData) : d.bytes.length = 32 := by
  simp [bytes]

@[simp] theorem DirLfnEntryData.length_bytes (d : DirLfnEntryData) : d.bytes.length = 32 := by
  simp [bytes, length_bytes_of_words]

@[simp] theorem DirEntryData.length_bytes (e : DirEntryData) : e.bytes.length = 32 := by
  cases e <;> simp [bytes]

/-! ## What bytes read as -/

def byte_at (b : List Byte) (k : Nat) : Byte := BitVec.ofNat 8 (leValue (slice b k 1))

def word_at (b : List Byte) (k : Nat) : BitVec 16 := BitVec.ofNat 16 (leValue (slice b k 2))

def dword_at (b : List Byte) (k : Nat) : BitVec 32 := BitVec.ofNat 32 (leValue (slice b k 4))

def words_at (b : List Byte) (k n : Nat) : List.Vector (BitVec 16) n :=
  fill 0#16 n (words (slice b k (2 * n)))

def attrs_at (b : List Byte) : FileAttributes := .from_bits_truncate (byte_at b 11)

def DirFileEntryData.decode (b : List Byte) : DirFileEntryData where
  name := fill 0#8 11 (b.take 11)
  attrs := attrs_at b
  reserved_0 := byte_at b 12
  create_time_0 := byte_at b 13
  create_time_1 := word_at b 14
  create_date := word_at b 16
  access_date := word_at b 18
  first_cluster_hi := word_at b 20
  modify_time := word_at b 22
  modify_date := word_at b 24
  first_cluster_lo := word_at b 26
  size := dword_at b 28

def DirLfnEntryData.decode (b : List Byte) : DirLfnEntryData where
  order := (fill 0#8 11 (b.take 11)).head
  name_0 := fill 0#16 5 (words (fill 0#8 11 (b.take 11)).tail.toList)
  attrs := attrs_at b
  entry_type := byte_at b 12
  checksum := byte_at b 13
  name_1 := words_at b 14 6
  reserved_0 := word_at b 26
  name_2 := words_at b 28 2

def DirEntryData.decode (b : List Byte) : DirEntryData :=
  if (attrs_at b).contains .LFN then .Lfn (.decode b) else .File (.decode b)

/-! ## Ports -/

section Ports

variable {σ : Type} {p : FatPort σ} {bytes done : List Byte} {R : List Byte → σ → Prop} {s : σ}

theorem read_words_spec (h : p.Serves bytes R) {k n : Nat} (hk : k + 2 * n ≤ bytes.length)
    (hs : R (bytes.take k) s) :
    Returns (DirEntryData.read_words p n)
    (fun r s' => r = words_at bytes k n ∧ R (bytes.take (k + 2 * n)) s') s := by
  refine returns_bind (h k _ s hk hs) ?_
  rintro b s' ⟨rfl, hs'⟩
  exact returns_pure ⟨rfl, hs'⟩

theorem deserialize_spec (h : p.Serves bytes R) (hlen : bytes.length = 32) (hs : R [] s) :
    Returns (DirEntryData.deserialize p) (fun r s' => r = .decode bytes ∧ R bytes s') s := by
  obtain ⟨name, s₁, hread, rfl, h₁⟩ := h 0 11 s (by omega) hs
  have hend : bytes.take 32 = bytes := by rw [← hlen, List.take_length]
  unfold DirEntryData.deserialize
  refine returns_bind (Q := fun r s' => r = .ok (bytes.take 11) ∧ s' = s₁)
    ⟨_, _, attempt_eq hread, by rw [slice_zero], rfl⟩ ?_
  rintro _ _ ⟨rfl, rfl⟩
  refine returns_bind (h.read_u8 (by omega) h₁) ?_
  rintro _ s₂ ⟨rfl, h₂⟩
  simp only [Nat.zero_add] at h₂ ⊢
  by_cases hlfn : (attrs_at bytes).contains .LFN = true
  · have hkind := hlfn
    unfold attrs_at byte_at at hkind
    rw [if_pos hkind, DirEntryData.decode, if_pos hlfn]
    refine returns_bind (h.read_u8 (k := 12) (by omega) h₂) ?_
    rintro _ s₃ ⟨rfl, h₃⟩
    refine returns_bind (h.read_u8 (k := 13) (by omega) h₃) ?_
    rintro _ s₄ ⟨rfl, h₄⟩
    refine returns_bind (read_words_spec h (k := 14) (n := 6) (by omega) h₄) ?_
    rintro _ s₅ ⟨rfl, h₅⟩
    refine returns_bind (h.read_u16 (k := 26) (by omega) h₅) ?_
    rintro _ s₆ ⟨rfl, h₆⟩
    refine returns_bind (read_words_spec h (k := 28) (n := 2) (by omega) h₆) ?_
    rintro _ s₇ ⟨rfl, h₇⟩
    rw [hend] at h₇
    exact returns_pure ⟨rfl, h₇⟩
  · have hkind := hlfn
    unfold attrs_at byte_at at hkind
    rw [if_neg hkind, DirEntryData.decode, if_neg hlfn]
    refine returns_bind (h.read_u8 (k := 12) (by omega) h₂) ?_
    rintro _ s₃ ⟨rfl, h₃⟩
    refine returns_bind (h.read_u8 (k := 13) (by omega) h₃) ?_
    rintro _ s₄ ⟨rfl, h₄⟩
    refine returns_bind (h.read_u16 (k := 14) (by omega) h₄) ?_
    rintro _ s₅ ⟨rfl, h₅⟩
    refine returns_bind (h.read_u16 (k := 16) (by omega) h₅) ?_
    rintro _ s₆ ⟨rfl, h₆⟩
    refine returns_bind (h.read_u16 (k := 18) (by omega) h₆) ?_
    rintro _ s₇ ⟨rfl, h₇⟩
    refine returns_bind (h.read_u16 (k := 20) (by omega) h₇) ?_
    rintro _ s₈ ⟨rfl, h₈⟩
    refine returns_bind (h.read_u16 (k := 22) (by omega) h₈) ?_
    rintro _ s₉ ⟨rfl, h₉⟩
    refine returns_bind (h.read_u16 (k := 24) (by omega) h₉) ?_
    rintro _ s₁₀ ⟨rfl, h₁₀⟩
    refine returns_bind (h.read_u16 (k := 26) (by omega) h₁₀) ?_
    rintro _ s₁₁ ⟨rfl, h₁₁⟩
    refine returns_bind (h.read_u32 (k := 28) (by omega) h₁₁) ?_
    rintro _ s₁₂ ⟨rfl, h₁₂⟩
    rw [hend] at h₁₂
    exact returns_pure ⟨rfl, h₁₂⟩

theorem write_words_spec {n : Nat} (h : p.Accepts n R) (l : List (BitVec 16))
    (hn : (done ++ bytes_of_words l).length ≤ n) (hs : R done s) :
    Returns (write_words p l) (fun _ s' => R (done ++ bytes_of_words l) s') s := by
  induction l generalizing done s with
  | nil =>
    refine returns_pure ?_
    rwa [bytes_of_words, List.flatMap_nil, List.append_nil]
  | cons w l ih =>
    have happ : done ++ bytes_of_words (w :: l) = done ++ leBytes 2 w.toNat ++
      bytes_of_words l := by
      rw [List.append_assoc]
      rfl
    rw [happ] at hn ⊢
    refine returns_bind (h done _ s ?_ hs) fun _ s' hs' => ih hn hs'
    rw [List.length_append] at hn
    omega

theorem file_serialize_spec {d : DirFileEntryData} (h : p.Accepts 32 R) (hs : R [] s) :
    Returns (d.serialize p) (fun _ s' => R d.bytes s') s := by
  unfold DirFileEntryData.serialize
  refine returns_bind (h _ _ s (by simp) hs) fun _ s₁ h₁ => ?_
  refine returns_bind (h _ _ s₁ (by simp) h₁) fun _ s₂ h₂ => ?_
  refine returns_bind (h _ _ s₂ (by simp) h₂) fun _ s₃ h₃ => ?_
  refine returns_bind (h _ _ s₃ (by simp) h₃) fun _ s₄ h₄ => ?_
  refine returns_bind (h _ _ s₄ (by simp) h₄) fun _ s₅ h₅ => ?_
  refine returns_bind (h _ _ s₅ (by simp) h₅) fun _ s₆ h₆ => ?_
  refine returns_bind (h _ _ s₆ (by simp) h₆) fun _ s₇ h₇ => ?_
  refine returns_bind (h _ _ s₇ (by simp) h₇) fun _ s₈ h₈ => ?_
  refine returns_bind (h _ _ s₈ (by simp) h₈) fun _ s₉ h₉ => ?_
  refine returns_bind (h _ _ s₉ (by simp) h₉) fun _ s₁₀ h₁₀ => ?_
  refine returns_bind (h _ _ s₁₀ (by simp) h₁₀) fun _ s₁₁ h₁₁ => ?_
  refine (h _ _ s₁₁ (by simp) h₁₁).mono fun _ s' h' => ?_
  rwa [List.nil_append] at h'

theorem lfn_serialize_spec {d : DirLfnEntryData} (h : p.Accepts 32 R) (hs : R [] s) :
    Returns (d.serialize p) (fun _ s' => R d.bytes s') s := by
  unfold DirLfnEntryData.serialize
  refine returns_bind (h _ _ s (by simp) hs) fun _ s₁ h₁ => ?_
  refine returns_bind (write_words_spec h _ (by simp [length_bytes_of_words]) h₁) fun _ s₂ h₂ => ?_
  refine returns_bind (h _ _ s₂ (by simp [length_bytes_of_words]) h₂) fun _ s₃ h₃ => ?_
  refine returns_bind (h _ _ s₃ (by simp [length_bytes_of_words]) h₃) fun _ s₄ h₄ => ?_
  refine returns_bind (h _ _ s₄ (by simp [length_bytes_of_words]) h₄) fun _ s₅ h₅ => ?_
  refine returns_bind (write_words_spec h _ (by simp [length_bytes_of_words]) h₅) fun _ s₆ h₆ => ?_
  refine returns_bind (h _ _ s₆ (by simp [length_bytes_of_words]) h₆) fun _ s₇ h₇ => ?_
  refine (write_words_spec h _ (by simp [length_bytes_of_words]) h₇).mono fun _ s' h' => ?_
  rwa [List.nil_append] at h'

theorem serialize_spec {e : DirEntryData} (h : p.Accepts 32 R) (hs : R [] s) :
    Returns (e.serialize p) (fun _ s' => R e.bytes s') s := by
  cases e with
  | File d => exact file_serialize_spec h hs
  | Lfn d => exact lfn_serialize_spec h hs

end Ports

/-! ## Round trips -/

section RoundTrips

/-- The bytes as they are written back: the two bits of the attributes without a name are
cleared. -/
def without_unnamed (b : List Byte) : List Byte :=
  b.take 11 ++ [byte_at b 11 &&& 0x3F#8] ++ b.drop 12

variable {b : List Byte} {k n : Nat}

theorem byte_at_bytes (hk : k + 1 ≤ b.length) : leBytes 1 (byte_at b k).toNat = slice b k 1 :=
  leBytes_word rfl (length_slice hk)

theorem word_at_bytes (hk : k + 2 ≤ b.length) : leBytes 2 (word_at b k).toNat = slice b k 2 :=
  leBytes_word rfl (length_slice hk)

theorem dword_at_bytes (hk : k + 4 ≤ b.length) : leBytes 4 (dword_at b k).toNat = slice b k 4 :=
  leBytes_word rfl (length_slice hk)

theorem words_at_bytes (hk : k + 2 * n ≤ b.length) :
    bytes_of_words (words_at b k n).toList = slice b k (2 * n) := by
  obtain ⟨h1, h2⟩ := bytes_of_words_words (length_slice hk)
  rw [words_at, fill_of_length h2, h1]

theorem leBytes_one (x : Byte) : leBytes 1 x.toNat = [x] := by
  simp [leBytes]

theorem drop_eq_slice (b : List Byte) (k n : Nat) : b.drop k = slice b k n ++ b.drop (k + n) := by
  rw [slice, ← List.drop_drop, List.take_append_drop]

theorem fill_take (hlen : b.length = 32) : (fill 0#8 11 (b.take 11)).toList = b.take 11 :=
  fill_of_length (by rw [List.length_take, hlen]; rfl)

theorem order_and_part (v : List.Vector Byte 11) :
    leBytes 1 v.head.toNat ++ bytes_of_words (fill 0#16 5 (words v.tail.toList)).toList =
    v.toList := by
  obtain ⟨h1, h2⟩ := bytes_of_words_words (n := 5) v.tail.toList_length
  rw [fill_of_length h2, h1, leBytes_one]
  exact congrArg List.Vector.toList v.cons_head_tail

theorem DirFileEntryData.bytes_decode (hlen : b.length = 32) :
    (DirFileEntryData.decode b).bytes = without_unnamed b := by
  have hend : b.drop 32 = [] := List.drop_of_length_le (le_of_eq hlen)
  rw [without_unnamed, drop_eq_slice b 12 1, drop_eq_slice b 13 1, drop_eq_slice b 14 2,
    drop_eq_slice b 16 2,
    drop_eq_slice b 18 2, drop_eq_slice b 20 2, drop_eq_slice b 22 2, drop_eq_slice b 24 2,
    drop_eq_slice b 26 2,
    drop_eq_slice b 28 4, hend]
  simp only [bytes, decode, fill_take hlen, attrs_at, FileAttributes.from_bits_truncate,
    leBytes_one (byte_at b 11 &&& 0x3F#8)]
  rw [byte_at_bytes (by omega), byte_at_bytes (by omega), word_at_bytes (by omega),
    word_at_bytes (by omega),
    word_at_bytes (by omega), word_at_bytes (by omega), word_at_bytes (by omega),
    word_at_bytes (by omega),
    word_at_bytes (by omega), dword_at_bytes (by omega)]
  simp only [List.append_assoc, List.append_nil]

theorem DirLfnEntryData.bytes_decode (hlen : b.length = 32) :
    (DirLfnEntryData.decode b).bytes = without_unnamed b := by
  have hend : b.drop 32 = [] := List.drop_of_length_le (le_of_eq hlen)
  rw [without_unnamed, drop_eq_slice b 12 1, drop_eq_slice b 13 1, drop_eq_slice b 14 12,
    drop_eq_slice b 26 2,
    drop_eq_slice b 28 4, hend]
  simp only [bytes, decode, order_and_part, fill_take hlen, attrs_at,
    FileAttributes.from_bits_truncate,
    leBytes_one (byte_at b 11 &&& 0x3F#8)]
  rw [byte_at_bytes (by omega), byte_at_bytes (by omega), word_at_bytes (by omega),
    words_at_bytes (by omega),
    words_at_bytes (by omega)]
  simp only [List.append_assoc, List.append_nil]

theorem DirEntryData.bytes_decode (hlen : b.length = 32) :
    (DirEntryData.decode b).bytes = without_unnamed b := by
  unfold DirEntryData.decode
  split
  · exact DirLfnEntryData.bytes_decode hlen
  · exact DirFileEntryData.bytes_decode hlen

theorem DirEntryData.sane_decode (b : List Byte) : (DirEntryData.decode b).Sane := by
  unfold DirEntryData.decode
  split
  · assumption
  · rename_i h
    exact eq_false_of_ne_true h

/-! ### Finding a field among the others -/

variable {l r : List Byte}

theorem slice_left (h : k + n ≤ l.length) : slice (l ++ r) k n = slice l k n := by
  rw [slice, slice, List.drop_append_of_le_length (by omega), List.take_append_of_le_length]
  rw [List.length_drop]
  omega

theorem slice_last {x : List Byte} (h : l.length = k) (hx : x.length = n) :
    slice (l ++ x) k n = x := by
  rw [slice_append_right h, ← hx, List.take_length]

theorem byte_at_left (h : k + 1 ≤ l.length) : byte_at (l ++ r) k = byte_at l k := by
  rw [byte_at, slice_left h, byte_at]

theorem byte_at_last (h : l.length = k) (x : Byte) : byte_at (l ++ leBytes 1 x.toNat) k = x := by
  rw [byte_at, slice_last h (length_leBytes 1 _)]
  exact leValue_leBytes_toNat (n := 1) rfl x

theorem word_at_left (h : k + 2 ≤ l.length) : word_at (l ++ r) k = word_at l k := by
  rw [word_at, slice_left h, word_at]

theorem word_at_last (h : l.length = k) (x : BitVec 16) :
    word_at (l ++ leBytes 2 x.toNat) k = x := by
  rw [word_at, slice_last h (length_leBytes 2 _)]
  exact leValue_leBytes_toNat (n := 2) rfl x

theorem dword_at_left (h : k + 4 ≤ l.length) : dword_at (l ++ r) k = dword_at l k := by
  rw [dword_at, slice_left h, dword_at]

theorem dword_at_last (h : l.length = k) (x : BitVec 32) :
    dword_at (l ++ leBytes 4 x.toNat) k = x := by
  rw [dword_at, slice_last h (length_leBytes 4 _)]
  exact leValue_leBytes_toNat (n := 4) rfl x

theorem words_at_left (h : k + 2 * n ≤ l.length) : words_at (l ++ r) k n = words_at l k n := by
  rw [words_at, slice_left h, words_at]

theorem words_at_last (h : l.length = k) (x : List.Vector (BitVec 16) n) :
    words_at (l ++ bytes_of_words x.toList) k n = x := by
  rw [words_at, slice_last h (by rw [length_bytes_of_words, x.toList_length]),
    words_bytes_of_words, fill_toList]

theorem DirFileEntryData.decode_bytes (d : DirFileEntryData) : decode d.bytes = d := by
  have hname : d.bytes.take 11 = d.name.toList := by
    simp only [bytes, List.append_assoc]
    exact List.take_left' d.name.toList_length
  unfold decode
  rw [hname, fill_toList]
  unfold attrs_at bytes
  simp (disch := simp) only [byte_at_left, byte_at_last, word_at_left, word_at_last, dword_at_last,
    FileAttributes.from_bits_truncate_bits]

theorem fill_cons (x : Byte) {l : List Byte} (h : l.length = 10) : (fill 0#8 11 (x :: l)).head = x ∧
    (fill 0#8 11 (x :: l)).tail.toList = l := by
  have hlist : (fill 0#8 11 (x :: l)).toList = x :: l :=
    fill_of_length (by rw [List.length_cons, h])
  have hcons := congrArg List.Vector.toList (fill 0#8 11 (x :: l)).cons_head_tail
  exact List.cons.inj (hcons.trans hlist)

theorem DirLfnEntryData.decode_bytes (d : DirLfnEntryData) : decode d.bytes = d := by
  have hlen : (bytes_of_words d.name_0.toList).length = 10 := by
    rw [length_bytes_of_words, d.name_0.toList_length]
  have hname : d.bytes.take 11 = d.order :: bytes_of_words d.name_0.toList := by
    simp only [bytes, List.append_assoc, leBytes_one, List.cons_append,
      List.nil_append, List.take_succ_cons]
    rw [List.take_left' hlen]
  obtain ⟨hhead, htail⟩ := fill_cons d.order hlen
  unfold decode
  rw [hname, hhead, htail, words_bytes_of_words, fill_toList]
  unfold attrs_at bytes
  simp (disch := simp [length_bytes_of_words]) only [byte_at_left, byte_at_last,
    word_at_left, word_at_last, words_at_left,
    words_at_last, FileAttributes.from_bits_truncate_bits]

theorem attrs_at_file (d : DirFileEntryData) : attrs_at d.bytes = d.attrs :=
  congrArg DirFileEntryData.attrs d.decode_bytes

theorem attrs_at_lfn (d : DirLfnEntryData) : attrs_at d.bytes = d.attrs :=
  congrArg DirLfnEntryData.attrs d.decode_bytes

theorem DirEntryData.decode_bytes {e : DirEntryData} (h : e.Sane) : decode e.bytes = e := by
  unfold decode
  cases e with
  | File d => rw [bytes, attrs_at_file, if_neg (by rw [show _ = _ from h]; simp), d.decode_bytes]
  | Lfn d => rw [bytes, attrs_at_lfn, if_pos (show _ = _ from h), d.decode_bytes]

end RoundTrips

/-- From every port that serves `b`, the entry `e` is read. -/
def Reads (b : List Byte) (e : DirEntryData) : Prop :=
  ∀ (σ : Type) (p : FatPort σ) (R : List Byte → σ → Prop) (s : σ),
  p.Serves b R → R [] s → Returns (DirEntryData.deserialize p) (fun r s' => r = e ∧ R b s') s

/-- To every port that has room, the entry `e` is written as `b`. -/
def Writes (e : DirEntryData) (b : List Byte) : Prop :=
  ∀ (σ : Type) (p : FatPort σ) (R : List Byte → σ → Prop) (s : σ),
  p.Accepts DIR_ENTRY_SIZE R → R [] s → Returns (e.serialize p) (fun _ s' => R b s') s

/-- What is read and written back is the same but for the two bits of the attributes that have no
name. What is written and read back is the same. -/
theorem entry_round_trips : (∀ b : List.Vector Byte DIR_ENTRY_SIZE, ∃ e, e.Sane ∧
    Reads b.toList e ∧ Writes e (without_unnamed b.toList)) ∧
    ∀ e : DirEntryData, e.Sane → ∃ b, b.length = DIR_ENTRY_SIZE ∧ Writes e b ∧ Reads b e := by
  constructor
  · intro b
    refine ⟨.decode b.toList, DirEntryData.sane_decode _,
      fun _ _ _ _ hr hs => deserialize_spec hr b.toList_length hs, fun _ _ _ _ hw hs => ?_⟩
    rw [← DirEntryData.bytes_decode b.toList_length]
    exact serialize_spec hw hs
  · intro e he
    refine ⟨e.bytes, e.length_bytes, fun _ _ _ _ hw hs => serialize_spec hw hs,
      fun _ _ _ _ hr hs => ?_⟩
    have h := deserialize_spec hr e.length_bytes hs
    rwa [DirEntryData.decode_bytes he] at h

end HectoOs.Fatfs
