import HectoOs.Heap.SlabClass

/-! # One zone

A `Zone` says what the header at the start of a zone stands for: which chunks are free and which are
held by a live block. `Zone.Ok` is about these lists alone, and `Stored` ties them to the memory.
-/

open HectoOs.Lib HectoOs.Heap

namespace HectoOs.Slab

/-! ## The statics that `init` leaves -/

structure Statics.Ok (c : Statics) : Prop where
  size : c.ZONE_SIZE = 32 * 1024 ∨ c.ZONE_SIZE = 64 * 1024 ∨ c.ZONE_SIZE = 128 * 1024
  pages : c.ZONE_PAGE_CNT = c.ZONE_SIZE / PAGE
  limit : c.CHUNK_LIMIT = min (c.ZONE_SIZE / 4) (16 * 1024)
  aligned : c.HEAP_START % PAGE = 0
  end_aligned : c.HEAP_END % PAGE = 0
  small : c.HEAP_END < c.HEAP_START + 2 ^ 44
  top : c.HEAP_END < 2 ^ 64
  table : Fresh c [] c.usage_run
  entries : (c.HEAP_END - c.HEAP_START) / PAGE * USAGE_SIZE ≤ c.usage_pages * PAGE

section Statics

variable {c : Statics} (hc : c.Ok)

include hc

theorem Statics.Ok.page_cnt : c.ZONE_PAGE_CNT * PAGE = c.ZONE_SIZE := by
  have h := hc.size
  rw [hc.pages, PAGE]
  omega

theorem Statics.Ok.limit_le : 4 * c.CHUNK_LIMIT ≤ c.ZONE_SIZE ∧ c.CHUNK_LIMIT ≤ 16 * 1024 := by
  rw [hc.limit]
  omega

theorem Statics.Ok.limit_pow : ∃ k, 7 ≤ k ∧ c.CHUNK_LIMIT = 2 ^ k := by
  have h := hc.limit
  rcases hc.size with hs | hs | hs
  · exact ⟨13, by omega, by omega⟩
  · exact ⟨14, by omega, by omega⟩
  · exact ⟨14, by omega, by omega⟩

end Statics

/-! ## A zone and its chunks -/

structure Zone where
  zi : Nat
  uindex : Nat
  free : List Nat
  held : List Block

namespace Zone

def size (Z : Zone) : Nat := class_size Z.zi

/-- The first chunk of the zone at `z`. -/
def base (Z : Zone) (z : Nat) : Nat := z + first_chunk Z.size

def nmax (c : Statics) (Z : Zone) : Nat := (c.ZONE_SIZE - first_chunk Z.size) / Z.size

def nfree (c : Statics) (Z : Zone) : Nat := Z.nmax c - Z.held.length

/-- The address of a chunk that has been used. -/
def Chunk (Z : Zone) (z a : Nat) : Prop := ∃ k < Z.uindex, a = Z.base z + k * Z.size

structure Ok (c : Statics) (z : Nat) (Z : Zone) : Prop where
  index : Z.zi < NZONES
  limit : Z.size ≤ c.CHUNK_LIMIT
  uindex_le : Z.uindex ≤ Z.nmax c
  free_chunk : ∀ a ∈ Z.free, Z.Chunk z a
  held_chunk : ∀ b ∈ Z.held, Z.Chunk z b.ptr ∧ b.size ≤ Z.size
  apart : ∀ b ∈ Z.held, b.ptr ∉ Z.free
  count : Z.free.length + Z.held.length = Z.uindex

section Layout

variable {c : Statics} {z : Nat} {Z : Zone}

theorem size_facts (hi : Z.zi < NZONES) : 8 ≤ Z.size ∧ Z.size % 8 = 0 ∧
    HEADER_SIZE ≤ first_chunk Z.size ∧ first_chunk Z.size ≤ max 64 Z.size :=
  class_size_facts Z.zi hi

theorem layout (hc : c.Ok) (hi : Z.zi < NZONES) (hl : Z.size ≤ c.CHUNK_LIMIT) :
    3 ≤ Z.nmax c ∧ first_chunk Z.size + Z.nmax c * Z.size ≤ c.ZONE_SIZE ∧ Z.nmax c < 2 ^ 32 := by
  obtain ⟨h8, -, -, hoff⟩ := size_facts hi
  have hs := hc.size
  have hlim := hc.limit_le
  have hmul := Nat.div_mul_le_self (c.ZONE_SIZE - first_chunk Z.size) Z.size
  have h3 : 3 ≤ Z.nmax c := by
    rw [nmax, Nat.le_div_iff_mul_le (by omega)]
    omega
  have hle : Z.nmax c ≤ c.ZONE_SIZE - first_chunk Z.size := Nat.div_le_self _ _
  rw [← nmax] at hmul
  exact ⟨h3, by omega, by omega⟩

theorem Chunk.bounds {n a : Nat} (hc : c.Ok) (hi : Z.zi < NZONES) (hl : Z.size ≤ c.CHUNK_LIMIT)
    (hn : n ≤ Z.nmax c) (h : ∃ k < n, a = Z.base z + k * Z.size) :
    z + 48 ≤ a ∧ a + Z.size ≤ z + c.ZONE_SIZE := by
  obtain ⟨k, hk, rfl⟩ := h
  have hoff : 48 ≤ first_chunk Z.size := (size_facts hi).2.2.1
  obtain ⟨-, hend, -⟩ := layout hc hi hl
  have hmul : (k + 1) * Z.size ≤ Z.nmax c * Z.size := Nat.mul_le_mul_right _ (by omega)
  rw [Nat.add_mul] at hmul
  unfold base
  omega

theorem Chunk.apart {a b : Nat} (ha : ∃ k, a = Z.base z + k * Z.size)
    (hb : ∃ k, b = Z.base z + k * Z.size) (h : a ≠ b) : a + Z.size ≤ b ∨ b + Z.size ≤ a := by
  obtain ⟨j, rfl⟩ := ha
  obtain ⟨k, rfl⟩ := hb
  rcases Nat.lt_trichotomy j k with hlt | rfl | hlt
  · have := Nat.mul_le_mul_right Z.size (show j + 1 ≤ k from hlt)
    rw [Nat.add_mul] at this
    omega
  · exact absurd rfl h
  · have := Nat.mul_le_mul_right Z.size (show k + 1 ≤ j from hlt)
    rw [Nat.add_mul] at this
    omega

end Layout

/-! ## What happens to a zone -/

/-- A chunk that was never used goes to a block of `n` bytes. -/
def use_fresh (Z : Zone) (z n : Nat) : Zone :=
  { Z with uindex := Z.uindex + 1, held := ⟨Z.base z + Z.uindex * Z.size, n⟩ :: Z.held }

/-- The free chunk `a` goes to a block of `n` bytes, and `l` stays free. -/
def use_free (Z : Zone) (a : Nat) (l : List Nat) (n : Nat) : Zone :=
  { Z with free := l, held := ⟨a, n⟩ :: Z.held }

def give_back (Z : Zone) (p : Nat) : Zone :=
  { Z with free := p :: Z.free, held := Z.held.filter fun b => b.ptr != p }

/-- A zone whose first chunk is a block of `n` bytes. -/
def fresh (zi z n : Nat) : Zone := ⟨zi, 1, [], [⟨z + first_chunk (class_size zi), n⟩]⟩

section Moves

variable {c : Statics} {z n : Nat} {Z : Zone}

theorem Ok.fresh_ne (h : Z.Ok c z) : ∀ a, Z.Chunk z a → a ≠ Z.base z + Z.uindex * Z.size := by
  rintro a ⟨k, hk, rfl⟩ heq
  have hpos := (size_facts h.index).1
  have := Nat.eq_of_mul_eq_mul_right (by omega) (Nat.add_left_cancel heq)
  omega

theorem Ok.use_fresh (h : Z.Ok c z) (hu : Z.uindex < Z.nmax c) (hn : n ≤ Z.size) :
    (Z.use_fresh z n).Ok c z where
  index := h.index
  limit := h.limit
  uindex_le := hu
  free_chunk a ha := by
    obtain ⟨k, hk, rfl⟩ := h.free_chunk a ha
    exact ⟨k, Nat.lt_succ_of_lt hk, rfl⟩
  held_chunk b hb := by
    rcases List.mem_cons.mp hb with rfl | hb
    · exact ⟨⟨Z.uindex, Nat.lt_succ_self _, rfl⟩, hn⟩
    · obtain ⟨⟨k, hk, hp⟩, hs⟩ := h.held_chunk b hb
      exact ⟨⟨k, Nat.lt_succ_of_lt hk, hp⟩, hs⟩
  apart b hb := by
    rcases List.mem_cons.mp hb with rfl | hb
    · exact fun hf => h.fresh_ne _ (h.free_chunk _ hf) rfl
    · exact h.apart b hb
  count := by
    have := h.count
    simp only [Zone.use_fresh, List.length_cons]
    omega

theorem Ok.use_free {a : Nat} {l : List Nat} (h : Z.Ok c z) (hf : Z.free = a :: l)
    (ha : a ∉ l) (hn : n ≤ Z.size) :
    (Z.use_free a l n).Ok c z where
  index := h.index
  limit := h.limit
  uindex_le := h.uindex_le
  free_chunk x hx := h.free_chunk x (by rw [hf]; exact List.mem_cons_of_mem _ hx)
  held_chunk b hb := by
    rcases List.mem_cons.mp hb with rfl | hb
    · exact ⟨h.free_chunk a (by simp [hf]), hn⟩
    · exact h.held_chunk b hb
  apart b hb := by
    rcases List.mem_cons.mp hb with rfl | hb
    · exact ha
    · intro hl
      exact h.apart b hb (by rw [hf]; exact List.mem_cons_of_mem _ hl)
  count := by
    have := h.count
    rw [hf, List.length_cons] at this
    simp only [Zone.use_free, List.length_cons]
    omega

theorem length_filter_ptr {l : List Block} (hnd : (l.map Block.ptr).Nodup)
    {b : Block} (hb : b ∈ l) :
    (l.filter fun x => x.ptr != b.ptr).length + 1 = l.length := by
  induction l with
  | nil => simp at hb
  | cons a l ih =>
    rw [List.map_cons, List.nodup_cons] at hnd
    rcases List.mem_cons.mp hb with rfl | hb
    · have hrest : l.filter (fun x => x.ptr != b.ptr) = l := by
        rw [List.filter_eq_self]
        intro x hx
        have : x.ptr ≠ b.ptr := fun he => hnd.1 (he ▸ List.mem_map_of_mem hx)
        simpa using this
      simp [hrest]
    · have hne : a.ptr ≠ b.ptr := fun he => hnd.1 (he ▸ List.mem_map_of_mem hb)
      have := ih hnd.2 hb
      simp [hne, this]

theorem Ok.give_back {b : Block} (h : Z.Ok c z) (hnd : (Z.held.map Block.ptr).Nodup)
    (hb : b ∈ Z.held) :
    (Z.give_back b.ptr).Ok c z where
  index := h.index
  limit := h.limit
  uindex_le := h.uindex_le
  free_chunk a ha := by
    rcases List.mem_cons.mp ha with rfl | ha
    · exact (h.held_chunk b hb).1
    · exact h.free_chunk a ha
  held_chunk x hx := h.held_chunk x (List.mem_filter.mp hx).1
  apart x hx := by
    obtain ⟨hx, hne⟩ := List.mem_filter.mp hx
    rw [Zone.give_back, List.mem_cons]
    rintro (he | hf)
    · simp [he] at hne
    · exact h.apart x hx hf
  count := by
    have h1 := h.count
    have h2 := length_filter_ptr hnd hb
    simp only [Zone.give_back, List.length_cons]
    omega

theorem fresh_ok {zi : Nat} (hc : c.Ok) (hi : zi < NZONES) (hl : class_size zi ≤ c.CHUNK_LIMIT)
    (hn : n ≤ class_size zi) : (fresh zi z n).Ok c z where
  index := hi
  limit := hl
  uindex_le := by
    have := (layout (Z := fresh zi z n) hc hi hl).1
    exact Nat.le_trans (by omega : 1 ≤ 3) this
  free_chunk := by simp [fresh]
  held_chunk b hb := by
    obtain rfl := List.mem_singleton.mp hb
    exact ⟨⟨0, by simp [fresh], by simp [base, fresh, size]⟩, hn⟩
  apart := by simp [fresh]
  count := by simp [fresh]

end Moves

end Zone

/-! ## The header -/

/-- The header at `z` stands for the zone `Z`, but for its `z_nfree`. -/
structure Stored (c : Statics) (m : Mem) (z : Nat) (Z : Zone) (nfree : Nat) : Prop where
  zoneindex : z_zoneindex m z = Z.zi
  baseptr : z_baseptr m z = Z.base z
  nmax : z_nmax m z = Z.nmax c
  uindex : z_uindex m z = Z.uindex
  nfree : z_nfree m z = nfree
  chain : ForwardList.IsList m (z_freechunk m z) Z.free

section Stored

variable {c : Statics} {m m' : Mem} {z n v : Nat} {Z : Zone}

theorem Stored.same (h : Stored c m z Z n) (hh : SameOn m m' (z + 12) (z + 48))
    (hf : ∀ a ∈ Z.free, SameOn m m' a (a + 8)) : Stored c m' z Z n where
  zoneindex := (load32_same (hh.mono (by omega) (by omega))).trans h.zoneindex
  baseptr := (load64_same (hh.mono (by omega) (by omega))).trans h.baseptr
  nmax := (load32_same (hh.mono (by omega) (by omega))).trans h.nmax
  uindex := (load32_same (hh.mono (by omega) (by omega))).trans h.uindex
  nfree := (load32_same (hh.mono (by omega) (by omega))).trans h.nfree
  chain := by
    have : z_freechunk m' z = z_freechunk m z := load64_same (hh.mono (by omega) (by omega))
    rw [this]
    exact ForwardList.isList_same h.chain hf

theorem Stored.same_zone (hc : c.Ok) (hZ : Z.Ok c z) (h : Stored c m z Z n)
    (hs : SameOn m m' (z + 12) (z + c.ZONE_SIZE)) : Stored c m' z Z n := by
  have hsize := hc.size
  refine h.same (hs.mono (by omega) (by omega)) fun a ha => ?_
  have hb := Zone.Chunk.bounds hc hZ.index hZ.limit hZ.uindex_le (hZ.free_chunk a ha)
  have h8 := (Zone.size_facts hZ.index).1
  exact hs.mono (by omega) (by omega)

theorem Stored.with_held (h : Stored c m z Z n) (held : List Block) :
    Stored c m z { Z with held } n :=
  ⟨h.zoneindex, h.baseptr, h.nmax, h.uindex, h.nfree, h.chain⟩

theorem Stored.set_nfree (h : Stored c m z Z n) (hf : ∀ a ∈ Z.free, z + 48 ≤ a) (hv : v < 2 ^ 32) :
    Stored c (set_nfree m z v) z Z v where
  zoneindex := (load32_store32_ne _ _ _ _ (by omega)).trans h.zoneindex
  baseptr := (load64_store32_ne _ _ _ _ (by omega)).trans h.baseptr
  nmax := (load32_store32_ne _ _ _ _ (by omega)).trans h.nmax
  uindex := (load32_store32_ne _ _ _ _ (by omega)).trans h.uindex
  nfree := load32_store32_same _ _ _ hv
  chain := by
    have : z_freechunk (Slab.set_nfree m z v) z = z_freechunk m z :=
      load64_store32_ne _ _ _ _ (by omega)
    rw [this]
    exact ForwardList.isList_same h.chain fun a ha =>
      store32_sameOn _ _ _ _ _ (by have := hf a ha; omega)

theorem Stored.set_uindex (h : Stored c m z Z n) (hf : ∀ a ∈ Z.free, z + 48 ≤ a) (hv : v < 2 ^ 32) :
    Stored c (set_uindex m z v) z { Z with uindex := v } n where
  zoneindex := (load32_store32_ne _ _ _ _ (by omega)).trans h.zoneindex
  baseptr := (load64_store32_ne _ _ _ _ (by omega)).trans h.baseptr
  nmax := (load32_store32_ne _ _ _ _ (by omega)).trans h.nmax
  uindex := load32_store32_same _ _ _ hv
  nfree := (load32_store32_ne _ _ _ _ (by omega)).trans h.nfree
  chain := by
    have : z_freechunk (Slab.set_uindex m z v) z = z_freechunk m z :=
      load64_store32_ne _ _ _ _ (by omega)
    rw [this]
    exact ForwardList.isList_same h.chain fun a ha =>
      store32_sameOn _ _ _ _ _ (by have := hf a ha; omega)

theorem Stored.set_freechunk {l : List Nat} (h : Stored c m z Z n)
    (hh : SameOn m m' (z + 8) (z + 40)) (hl : ForwardList.IsList m' v l)
    (hlt : ∀ a ∈ l, z + 48 ≤ a ∧ a < 2 ^ 64) :
    Stored c (set_freechunk m' z v) z { Z with free := l } n where
  zoneindex := by
    refine (load32_store64_ne _ _ _ _ (by omega)).trans ?_
    exact (load32_same (hh.mono (by omega) (by omega))).trans h.zoneindex
  baseptr := by
    refine (load64_store64_ne _ _ _ _ (by omega)).trans ?_
    exact (load64_same (hh.mono (by omega) (by omega))).trans h.baseptr
  nmax := by
    refine (load32_store64_ne _ _ _ _ (by omega)).trans ?_
    exact (load32_same (hh.mono (by omega) (by omega))).trans h.nmax
  uindex := by
    refine (load32_store64_ne _ _ _ _ (by omega)).trans ?_
    exact (load32_same (hh.mono (by omega) (by omega))).trans h.uindex
  nfree := by
    refine (load32_store64_ne _ _ _ _ (by omega)).trans ?_
    exact (load32_same (hh.mono (by omega) (by omega))).trans h.nfree
  chain := by
    have hv : v < 2 ^ 64 := ForwardList.isList_head_lt hl fun a ha => (hlt a ha).2
    have : z_freechunk (Slab.set_freechunk m' z v) z = v := load64_store64_same _ _ _ hv
    rw [this]
    exact ForwardList.isList_same hl fun a ha =>
      store64_sameOn _ _ _ _ _ (by have := (hlt a ha).1; omega)

theorem Stored.pop {a : Nat} {l : List Nat} (hc : c.Ok) (hZ : Z.Ok c z)
    (h : Stored c m z Z n) (hl : Z.free = a :: l) (hz : z + c.ZONE_SIZE < 2 ^ 64) :
    Stored c (Slab.set_freechunk (ForwardList.pop_front m a).1 z (ForwardList.pop_front m a).2) z
      { Z with free := l } n := by
  have h8 := (Zone.size_facts hZ.index).1
  have hin : ∀ x ∈ Z.free, z + 48 ≤ x ∧ x + Z.size ≤ z + c.ZONE_SIZE :=
    fun x hx => Zone.Chunk.bounds hc hZ.index hZ.limit hZ.uindex_le (hZ.free_chunk x hx)
  have hchain := h.chain
  rw [hl] at hchain hin
  have hhead : z_freechunk m z = a := hchain.1
  rw [hhead] at hchain
  have ha := hin a List.mem_cons_self
  refine h.set_freechunk (store64_sameOn _ _ _ _ _ (by omega))
    (ForwardList.pop_front_spec hchain ?_) ?_
  · intro x hx
    have hne : x ≠ a := by
      rintro rfl
      exact (List.nodup_cons.mp hchain.nodup).1 hx
    have hx' : x ∈ Z.free := by simp [hl, hx]
    obtain ⟨j, -, hj⟩ := hZ.free_chunk x hx'
    obtain ⟨k, -, hk⟩ := hZ.free_chunk a (by simp [hl])
    have := Zone.Chunk.apart ⟨j, hj⟩ ⟨k, hk⟩ hne
    omega
  · intro x hx
    have := hin x (List.mem_cons_of_mem _ hx)
    omega

theorem Stored.push {p : Nat} (hc : c.Ok) (hZ : Z.Ok c z) (h : Stored c m z Z n)
    (hp : Z.Chunk z p) (hnew : p ∉ Z.free) (hz : z + c.ZONE_SIZE < 2 ^ 64) :
    Stored c (Slab.set_freechunk (ForwardList.push_front m (z_freechunk m z) p).1 z
      (ForwardList.push_front m (z_freechunk m z) p).2) z { Z with free := p :: Z.free } n := by
  have h8 := (Zone.size_facts hZ.index).1
  have hin : ∀ x, Z.Chunk z x → z + 48 ≤ x ∧ x + Z.size ≤ z + c.ZONE_SIZE :=
    fun x hx => Zone.Chunk.bounds hc hZ.index hZ.limit hZ.uindex_le hx
  have hp' := hin p hp
  refine h.set_freechunk (store64_sameOn _ _ _ _ _ (by omega))
    (ForwardList.push_front_spec h.chain (by omega) ?_ ?_) ?_
  · intro x hx
    have := hin x (hZ.free_chunk x hx)
    omega
  · intro x hx
    have hne : x ≠ p := by
      rintro rfl
      exact hnew hx
    obtain ⟨j, -, hj⟩ := hZ.free_chunk x hx
    obtain ⟨k, -, hk⟩ := hp
    have := Zone.Chunk.apart ⟨j, hj⟩ ⟨k, hk⟩ hne
    omega
  · intro x hx
    rcases List.mem_cons.mp hx with rfl | hx
    · omega
    · have := hin x (hZ.free_chunk x hx)
      omega

theorem stored_fresh {zi : Nat} (hc : c.Ok) (hi : zi < NZONES)
    (hl : class_size zi ≤ c.CHUNK_LIMIT) (hz : z + c.ZONE_SIZE < 2 ^ 64) :
    Stored c (new_header c m z zi (class_size zi)) z (Zone.fresh zi z n)
      ((Zone.fresh zi z n).nfree c) := by
  obtain ⟨h3, hend, hmax⟩ := Zone.layout (Z := Zone.fresh zi z n) hc hi hl
  have hi' : zi < 72 := hi
  simp only [Zone.nmax, Zone.size, Zone.fresh] at h3 hend hmax
  generalize hnm : (c.ZONE_SIZE - first_chunk (class_size zi)) / class_size zi =
    nmax at h3 hend hmax
  constructor
  all_goals simp only [new_header, hnm, Slab.set_uindex, set_baseptr, Slab.set_nfree,
    set_nmax, set_zoneindex,
    set_magic, Zone.nfree, Zone.nmax, Zone.base, Zone.size, Zone.fresh, List.length_singleton]
  case zoneindex =>
    simp (disch := omega) only [z_zoneindex, load32_store32_ne, load32_store64_ne,
      load32_store32_same]
  case baseptr =>
    simp (disch := omega) only [z_baseptr, load64_store32_ne, load64_store64_same]
  case nmax =>
    simp (disch := omega) only [z_nmax, load32_store32_ne, load32_store64_ne, load32_store32_same]
  case uindex =>
    simp (disch := omega) only [z_uindex, load32_store32_same]
  case nfree =>
    simp (disch := omega) only [z_nfree, load32_store32_ne, load32_store64_ne, load32_store32_same]
  case chain =>
    simp (disch := omega) only [z_freechunk, load64_store32_ne, load64_store64_ne]
    exact Chain.nil_iff.mpr (load64_zeroBytes m z 48 (z + 40) (by omega) (by omega))

theorem new_header_magic {zi size : Nat} :
    z_magic (new_header c m z zi size) z = ZALLOC_SLAB_MAGIC := by
  simp (disch := omega) only [z_magic, new_header, Slab.set_uindex, set_baseptr,
    Slab.set_nfree, set_nmax,
    set_zoneindex, set_magic, load32_store32_ne, load32_store64_ne]
  exact load32_store32_same _ _ _ (by decide)

theorem new_header_next {zi size : Nat} : next (new_header c m z zi size) z = 0 := by
  simp (disch := omega) only [next, new_header, Slab.set_uindex, set_baseptr,
    Slab.set_nfree, set_nmax,
    set_zoneindex, set_magic, load64_store32_ne, load64_store64_ne]
  exact load64_zeroBytes m z 48 z (by omega) (by omega)

theorem new_header_sameOff {zi size : Nat} : SameOff m (new_header c m z zi size) z (z + 48) := by
  refine SameOff.trans ?_ ((store32_sameOff _ (z + 20) _).mono (by omega) (by omega))
  refine SameOff.trans ?_ ((store64_sameOff _ (z + 24) _).mono (by omega) (by omega))
  refine SameOff.trans ?_ ((store32_sameOff _ (z + 12) _).mono (by omega) (by omega))
  refine SameOff.trans ?_ ((store32_sameOff _ (z + 16) _).mono (by omega) (by omega))
  refine SameOff.trans ?_ ((store32_sameOff _ (z + 32) _).mono (by omega) (by omega))
  refine SameOff.trans ?_ ((store32_sameOff _ (z + 8) _).mono (by omega) (by omega))
  exact zeroBytes_sameOff m z 48

end Stored

end HectoOs.Slab
