import HectoOs.Fatfs.File
import HectoOs.Fatfs.Volume
import HectoOs.Fs.Stream

/-! # An open file

An open file is a sequence of bytes with an offset: the bytes of its chain, up to the size in its
entry. A request is served up to the end of one cluster.
-/

open HectoOs.Lib
open HectoOs.Stream (splice splice_length)

namespace HectoOs.Fatfs

/-! ## Bytes of a chain -/

section ChainBytes

variable {fs fs' : FileSystem} {l : List Nat} {k r n c : Nat} {new : List Byte}

theorem chain_bytes_split (fs : FileSystem) (h : k < l.length) :
    fs.chain_bytes l = fs.chain_bytes (l.take k) ++
      (fs.cluster_bytes l[k] ++ fs.chain_bytes (l.drop (k + 1))) := by
  conv_lhs => rw [chain_split h]
  unfold FileSystem.chain_bytes
  rw [List.flatMap_append, List.flatMap_cons]

theorem length_chain_bytes_take (fs : FileSystem) (h : k ≤ l.length) :
    (fs.chain_bytes (l.take k)).length = k * fs.cluster_size := by
  rw [length_chain_bytes, List.length_take, Nat.min_eq_left h]

theorem cluster_bytes_part (fs : FileSystem) (c : Nat) (h : r + n ≤ fs.cluster_size) :
    ((fs.cluster_bytes c).drop r).take n = bytesAt fs.disk (fs.offset_from_cluster c + r) n := by
  have hsize : fs.cluster_size = r + (n + (fs.cluster_size - r - n)) := by omega
  unfold FileSystem.cluster_bytes
  rw [hsize, bytesAt_append, List.drop_left' (length_bytesAt _ _ _), bytesAt_append,
    List.take_left' (length_bytesAt _ _ _)]

theorem chain_bytes_part (fs : FileSystem) (hk : k < l.length) (h : r + n ≤ fs.cluster_size) :
    ((fs.chain_bytes l).drop (k * fs.cluster_size + r)).take n =
      bytesAt fs.disk (fs.offset_from_cluster l[k] + r) n := by
  have hr : r ≤ (fs.cluster_bytes l[k]).length := by
    rw [length_cluster_bytes]
    omega
  rw [chain_bytes_split fs hk, ← List.drop_drop, List.drop_left' (length_chain_bytes_take fs hk.le),
    List.drop_append_of_le_length hr,
    List.take_append_of_le_length, cluster_bytes_part fs _ h]
  rw [List.length_drop, length_cluster_bytes]
  omega

theorem splice_append_left (a b : List Byte) (n : Nat) (new : List Byte) :
    splice (a ++ b) (a.length + n) new = a ++ splice b n new := by
  unfold splice
  rw [List.take_length_add_append, Nat.add_assoc, List.drop_length_add_append,
    List.append_assoc, List.append_assoc, List.append_assoc]

theorem splice_append_right (a b : List Byte) {n : Nat} {new : List Byte}
    (h : n + new.length ≤ a.length) :
    splice (a ++ b) n new = splice a n new ++ b := by
  unfold splice
  rw [List.take_append_of_le_length (by omega), List.drop_append_of_le_length h,
    List.append_assoc, List.append_assoc, List.append_assoc]

theorem cluster_bytes_splice (h : r + new.length ≤ fs.cluster_size) (hsame : SameVolume fs fs')
    (hd : fs'.disk = writeBytes fs.disk (fs.offset_from_cluster c + r) new) :
    fs'.cluster_bytes c = splice (fs.cluster_bytes c) r new := by
  have hsize : fs.cluster_size = r + (new.length + (fs.cluster_size - r - new.length)) := by omega
  have hbefore : bytesAt fs'.disk (fs.offset_from_cluster c) r =
    bytesAt fs.disk (fs.offset_from_cluster c) r := by
    rw [hd]
    exact bytesAt_same (writeBytes_sameOn _ _ _ _ _ (.inl (le_refl _)))
  have hin : bytesAt fs'.disk (fs.offset_from_cluster c + r) new.length = new := by
    rw [hd, bytesAt_writeBytes]
  have hafter : ∀ n, bytesAt fs'.disk (fs.offset_from_cluster c + r + new.length) n =
      bytesAt fs.disk (fs.offset_from_cluster c + r + new.length) n := by
    intro n
    rw [hd]
    exact bytesAt_same (writeBytes_sameOn _ _ _ _ _ (.inr (le_refl _)))
  unfold FileSystem.cluster_bytes splice
  rw [hsame.cluster_size, hsame.offset_from_cluster, hsize, bytesAt_append,
    bytesAt_append, bytesAt_append _ _ r, hbefore, hin, hafter,
    List.take_left' (length_bytesAt _ _ _), ← List.drop_drop,
    List.drop_left' (length_bytesAt _ _ _), bytesAt_append,
    List.drop_left' (length_bytesAt _ _ _), List.append_assoc]

theorem chain_bytes_splice (hk : k < l.length) (hnd : l.Nodup)
    (h : r + new.length ≤ fs.cluster_size) (hsame : SameVolume fs fs')
    (hd : fs'.disk = writeBytes fs.disk (fs.offset_from_cluster l[k] + r) new)
    (hother : ∀ d ∈ l, d ≠ l[k] → fs'.cluster_bytes d = fs.cluster_bytes d) :
    fs'.chain_bytes l = splice (fs.chain_bytes l) (k * fs.cluster_size + r) new := by
  have hapart : (l.take k ++ l[k] :: l.drop (k + 1)).Nodup := by
    rwa [← chain_split hk]
  rw [List.nodup_append] at hapart
  obtain ⟨_, htail, hapart⟩ := hapart
  have hleft : fs'.chain_bytes (l.take k) = fs.chain_bytes (l.take k) :=
    chain_bytes_same fun d hd =>
      hother d (List.mem_of_mem_take hd) (hapart d hd _ List.mem_cons_self)
  have hright : fs'.chain_bytes (l.drop (k + 1)) = fs.chain_bytes (l.drop (k + 1)) :=
    chain_bytes_same fun d hd => hother d (List.mem_of_mem_drop hd) fun heq =>
      (List.nodup_cons.mp htail).1 (heq ▸ hd)
  have hlen := length_chain_bytes_take fs hk.le
  rw [chain_bytes_split fs' hk, chain_bytes_split fs hk, hleft, hright,
    cluster_bytes_splice h hsame hd, ← hlen, splice_append_left,
    splice_append_right]
  rwa [length_cluster_bytes]

theorem splice_take (a : List Byte) {m n : Nat} {new : List Byte} (hm : n ≤ m)
    (hn : n + new.length ≤ a.length) :
    splice (a.take m) n new = (splice a n new).take (max m (n + new.length)) := by
  have hlen : (a.take n ++ new).length = n + new.length := by
    rw [List.length_append, List.length_take]
    omega
  have hmax : max m (n + new.length) = (a.take n ++ new).length + (m - (n + new.length)) := by omega
  unfold splice
  rw [List.take_take, Nat.min_eq_left hm, List.drop_take, hmax, List.take_length_add_append]

end ChainBytes

/-! ## First clusters in entries -/

section FirstCluster

theorem low_half (n : BitVec 32) : (n &&& 0xFFFF#32).setWidth 16 = n.setWidth 16 := by
  apply BitVec.eq_of_toNat_eq
  have h := Nat.and_two_pow_sub_one_eq_mod n.toNat 16
  simp only [BitVec.toNat_setWidth, BitVec.toNat_and]
  rw [show (0xFFFF#32).toNat = 2 ^ 16 - 1 from rfl, h, Nat.mod_mod]

theorem halves (n : BitVec 32) :
    ((n >>> 16).setWidth 16).setWidth 32 <<< 16 ||| (n.setWidth 16).setWidth 32 = n := by
  refine BitVec.eq_of_getLsbD_eq fun i hi => ?_
  simp only [BitVec.getLsbD_or, BitVec.getLsbD_shiftLeft, BitVec.getLsbD_setWidth,
    BitVec.getLsbD_ushiftRight]
  by_cases h : i < 16
  · simp [h, hi]
  · have hlt : i - 16 < 16 := by omega
    have hback : 16 + (i - 16) = i := by omega
    simp [h, hi, hlt, hback]
    omega

theorem data_set_first_cluster {d : DirFileEntryData} {t : FatType} {c : Option Nat}
    (hc : ∀ n ∈ c, 0 < n ∧ n < bad_value t) : (d.set_first_cluster c t).first_cluster t = c := by
  have hlt : c.getD 0 < bad_value t := by
    cases c with
    | none => cases t <;> decide
    | some n => exact (hc n rfl).2
  have hnum : ((if t = .Fat32 then (d.set_first_cluster c t).first_cluster_hi else 0#16).setWidth
    32 <<< 16 |||
      (d.set_first_cluster c t).first_cluster_lo.setWidth 32).toNat = c.getD 0 := by
    unfold DirFileEntryData.set_first_cluster
    cases t with
    | Fat32 =>
      simp only [reduceIte, low_half, halves]
      simp only [bad_value] at hlt
      rw [BitVec.toNat_ofNat, Nat.mod_eq_of_lt (by omega)]
    | _ =>
      simp only [bad_value] at hlt
      simp only [reduceCtorEq, reduceIte, low_half, BitVec.setWidth_zero,
        BitVec.zero_shiftLeft, BitVec.zero_or,
        BitVec.toNat_setWidth, BitVec.toNat_ofNat]
      omega
  unfold DirFileEntryData.first_cluster
  simp only [hnum]
  cases c with
  | none => rfl
  | some n => exact if_neg (hc n rfl).1.ne'

variable (e : DirEntryEditor) (t : FatType)

theorem set_accessed_first (d : Date) :
    (e.set_accessed d).data.first_cluster t = e.data.first_cluster t := by
  unfold DirEntryEditor.set_accessed
  split <;> rfl

theorem set_modified_first (d : DateTime) :
    (e.set_modified d).data.first_cluster t = e.data.first_cluster t := by
  unfold DirEntryEditor.set_modified
  split <;> rfl

theorem set_size_first (n : Nat) :
    (e.set_size n).data.first_cluster t = e.data.first_cluster t := by
  unfold DirEntryEditor.set_size
  split
  · split <;> rfl
  · rfl

theorem set_first_cluster_first {c : Option Nat} (hc : ∀ n ∈ c, 0 < n ∧ n < bad_value t) :
    (e.set_first_cluster c t).data.first_cluster t = c := by
  unfold DirEntryEditor.set_first_cluster
  split
  · exact data_set_first_cluster hc
  · rename_i h
    exact (not_not.mp h).symm

end FirstCluster

/-! ## Open files -/

/-- The file `f` with the chain `l` is the inode: the first cluster of the chain, the one before the
offset, the size and the first cluster in the entry, and the bytes. -/
structure Holds (fs : FileSystem) (l : List Nat) (f : File) (inode : Stream.Inode) : Prop where
  offset : f.offset = inode.offset
  first : f.first_cluster = l.head?
  current : f.current_cluster = if f.offset = 0 then none else l[(f.offset - 1) / fs.cluster_size]?
  size : f.size = some inode.bytes.length
  named : ∀ e ∈ f.entry, e.data.first_cluster fs.fat_type = l.head?
  fits : inode.bytes.length ≤ l.length * fs.cluster_size
  bytes : inode.bytes = (fs.chain_bytes l).take inode.bytes.length

section Open

variable {ι : Type} {fs fs' : FileSystem} {chains : ι → List Nat} {free : Nat}
  {i : ι} {l l' : List Nat} {f : File} {inode : Stream.Inode}
  {count n o : Nat}

theorem Holds.same (h : Holds fs l f inode) (hsame : SameVolume fs fs')
    (hbytes : ∀ c ∈ l, fs'.cluster_bytes c = fs.cluster_bytes c) :
    Holds fs' l f inode := by
  refine ⟨h.offset, h.first, ?_, h.size, ?_, ?_, ?_⟩
  · rw [hsame.cluster_size]
    exact h.current
  · rw [hsame.fat_type]
    exact h.named
  · rw [hsame.cluster_size]
    exact h.fits
  · rw [chain_bytes_same hbytes]
    exact h.bytes

theorem size_le {e : DirEntryEditor} (h : e.data.file_size = some n) : n ≤ MAX_FILE_SIZE := by
  unfold DirFileEntryData.file_size at h
  split at h
  · obtain rfl := Option.some.inj h
    exact Nat.le_sub_one_of_lt (BitVec.isLt _)
  · cases h

theorem Holds.entry (h : Holds fs l f inode) :
    ∃ e, f.entry = some e ∧ e.data.file_size = some inode.bytes.length :=
  Option.bind_eq_some_iff.mp h.size

theorem Holds.size_le (h : Holds fs l f inode) : inode.bytes.length ≤ MAX_FILE_SIZE := by
  obtain ⟨e, _, hsize⟩ := h.entry
  exact Fatfs.size_le hsize

theorem Holds.inside (h : Holds fs l f inode) : f.offset ≤ inode.bytes.length :=
  h.offset ▸ inode.inside

theorem Holds.before_lt (h : Holds fs l f inode) (hcs : 0 < fs.cluster_size) (h0 : f.offset ≠ 0) :
    (f.offset - 1) / fs.cluster_size < l.length := by
  have hin := h.inside
  have hfits := h.fits
  exact (Nat.div_lt_iff_lt_mul hcs).mpr (by omega)

/-! ### Finding the cluster -/

theorem before_inside {cs : Nat} (hcs : 0 < cs) (h : o % cs ≠ 0) : (o - 1) / cs = o / cs := by
  have hdiv := Nat.div_add_mod o cs
  have hlt := Nat.mod_lt o hcs
  have hrest : (o % cs - 1) / cs = 0 := Nat.div_eq_of_lt (by omega)
  rw [show o - 1 = cs * (o / cs) + (o % cs - 1) by omega, Nat.mul_add_div hcs, hrest, Nat.add_zero]

theorem before_start {cs : Nat} (hcs : 0 < cs) (h : o % cs = 0) (ho : o ≠ 0) :
    (o - 1) / cs + 1 = o / cs := by
  have hdiv := Nat.div_add_mod o cs
  cases hq : o / cs with
  | zero =>
    rw [hq, Nat.mul_zero] at hdiv
    omega
  | succ q =>
    have hrest : (cs - 1) / cs = 0 := Nat.div_eq_of_lt (by omega)
    rw [hq, Nat.mul_succ] at hdiv
    rw [show o - 1 = cs * q + (cs - 1) by omega, Nat.mul_add_div hcs, hrest, Nat.add_zero]

theorem Links.getElem {g : Nat → FatValue} (h : Links g l) {k : Nat} (hk : k < l.length) :
    g l[k] = successor (l.drop (k + 1)) := by
  rw [← List.take_append_drop k l, List.drop_eq_getElem_cons hk] at h
  exact h.right.1

theorem next_in_chain (h : Volume fs chains free) {k : Nat} (hk : k < (chains i).length) : ∃ iter,
    FileSystem.on_fat (ClusterIterator.new fs.fat_type (chains i)[k]).next fs =
      .ok (.ok (((chains i)[k + 1]?).map .ok, iter), fs) := by
  have hc := h.partition.inRange i _ (List.getElem_mem hk)
  have hlink := (h.partition.links i).getElem hk
  obtain ⟨o, hnext⟩ := next_spec h.geometry.covers hc hlink
  rw [List.head?_drop] at hnext
  exact ⟨_, on_fat_reads hnext⟩

theorem next_cluster_spec (h : Volume fs chains free) (hf : Holds fs (chains i) f inode) :
    File.next_cluster (fs, f) = .ok (.ok (chains i)[f.offset / fs.cluster_size]?, (fs, f)) := by
  have hcs := h.geometry.cluster_size
  have hcurrent := hf.current
  refine (bind_of_ok (x := getThe (FileSystem × File)) rfl).trans ?_
  by_cases hstart : f.offset % fs.cluster_size = 0
  · by_cases h0 : f.offset = 0
    · rw [if_pos h0] at hcurrent
      simp only [if_pos hstart, hcurrent]
      rw [h0, Nat.zero_div, ← List.head?_eq_getElem?, ← hf.first]
      rfl
    · have hlt := hf.before_lt hcs h0
      rw [if_neg h0, List.getElem?_eq_getElem hlt] at hcurrent
      obtain ⟨iter, hnext⟩ := next_in_chain h hlt
      rw [before_start hcs hstart h0] at hnext
      have hon : in_fs (FileSystem.on_fat (ClusterIterator.new fs.fat_type
        (chains i)[(f.offset - 1) / fs.cluster_size]).next) (fs, f) =
          .ok (.ok (((chains i)[f.offset / fs.cluster_size]?).map .ok, iter), (fs, f)) := by
        rw [in_fs, hnext]
        rfl
      simp only [if_pos hstart, hcurrent]
      refine (bind_of_ok hon).trans ?_
      cases (chains i)[f.offset / fs.cluster_size]? <;> rfl
  · have hne : f.offset ≠ 0 := by
      intro h0
      rw [h0, Nat.zero_mod] at hstart
      exact hstart rfl
    rw [if_neg hne, before_inside hcs hstart] at hcurrent
    simp only [if_neg hstart, hcurrent]
    rfl

/-! ### Reading -/

/-- How much of a request at offset `o` is served: up to the end of the cluster. -/
def most (cs o : Nat) : Nat := cs - o % cs

theorem after_inside {cs : Nat} (hcs : 0 < cs) (hn : 0 < n) (h : n ≤ cs - o % cs) :
    (o + n - 1) / cs = o / cs := by
  have hdiv := Nat.div_add_mod o cs
  have hlt := Nat.mod_lt o hcs
  have hrest : (o % cs + n - 1) / cs = 0 := Nat.div_eq_of_lt (by omega)
  rw [show o + n - 1 = cs * (o / cs) + (o % cs + n - 1) by omega, Nat.mul_add_div hcs,
    hrest, Nat.add_zero]

theorem Holds.drop_take (h : Holds fs l f inode) (n : Nat) : (inode.bytes.drop f.offset).take n =
    ((fs.chain_bytes l).drop f.offset).take (min n (inode.bytes.length - f.offset)) := by
  conv_lhs => rw [h.bytes]
  rw [List.drop_take, List.take_take]

theorem Holds.advance (h : Holds fs l f inode) (hcs : 0 < fs.cluster_size)
    {c : Nat} (hc : l[f.offset / fs.cluster_size]? = some c) (hn : 0 < n)
    (hmost : n ≤ most fs.cluster_size f.offset) (hin : f.offset + n ≤ inode.bytes.length)
    {e : DirEntryEditor} (he : e.data.file_size = some inode.bytes.length)
    (hnamed : e.data.first_cluster fs.fat_type = l.head?) :
    Holds fs l { f with offset := f.offset + n, current_cluster := some c, entry := some e }
    (inode.at_offset (f.offset + n)) := by
  refine ⟨(Nat.min_eq_left hin).symm, h.first, ?_, he, ?_, h.fits, h.bytes⟩
  rotate_left
  · rintro _ ⟨rfl⟩
    exact hnamed
  show some c = if f.offset + n = 0 then none else l[(f.offset + n - 1) / fs.cluster_size]?
  rw [if_neg (by omega), after_inside hcs hn hmost, hc]

theorem set_accessed_size (e : DirEntryEditor) (t : Date) :
    (e.set_accessed t).data.file_size = e.data.file_size := by
  unfold DirEntryEditor.set_accessed
  split <;> rfl

theorem Holds.bytes_left (h : Holds fs l f inode) :
    f.bytes_left = some (inode.bytes.length - f.offset) := by
  rw [File.bytes_left, h.size]
  rfl

theorem in_fs_ok {α : Type} {x : FsM α} {r : Except Error α} (h : x fs = .ok (r, fs')) :
    in_fs x (fs, f) = .ok (r, (fs', f)) := by
  rw [in_fs, h]
  rfl

theorem on_disk_read (hs : fs.device.Serves) (pos : Nat) (hn : 0 < n) : ∃ k, 0 < k ∧ k ≤ n ∧
    FileSystem.on_disk pos (DiskCursor.read n) fs = .ok (.ok (bytesAt fs.disk pos k), fs) := by
  obtain ⟨k, hpos, hle, hread⟩ := @DiskCursor.read_spec ⟨fs.device, fs.disk, pos⟩ n hs hn
  refine ⟨k, hpos, hle, ?_⟩
  rw [FileSystem.on_disk, hread]
  rfl

theorem on_disk_write (hs : fs.device.Serves) (pos : Nat) {buf : List Byte} (hb : buf ≠ []) :
    ∃ k, 0 < k ∧ k ≤ buf.length ∧ FileSystem.on_disk pos (DiskCursor.write buf) fs =
      .ok (.ok k, { fs with disk := writeBytes fs.disk pos (buf.take k) }) := by
  obtain ⟨k, hpos, hle, -, hwrite⟩ := @DiskCursor.write_spec ⟨fs.device, fs.disk, pos⟩ buf hs hb
  refine ⟨k, hpos, hle, ?_⟩
  rw [FileSystem.on_disk, hwrite]
  rfl

theorem Holds.at_offset_self (h : Holds fs l f inode) : Holds fs l f (inode.at_offset f.offset) :=
  ⟨(Nat.min_eq_left h.inside).symm, h.first, h.current, h.size, h.named, h.fits, h.bytes⟩

theorem read_spec (h : Volume fs chains free) (hf : Holds fs (chains i) f inode) (count : Nat) :
    ∃ k bytes f', 0 < k ∧ File.read count (fs, f) = .ok (.ok bytes, (fs, f')) ∧
      (inode.read count (some (min k (most fs.cluster_size f.offset)))).1 = some bytes ∧
      Holds fs (chains i) f'
        (inode.read count (some (min k (most fs.cluster_size f.offset)))).2 := by
  have hcs := h.geometry.cluster_size
  have hnext := next_cluster_spec h hf
  unfold Stream.Inode.read
  simp only [← hf.offset, hf.drop_take]
  cases hc : (chains i)[f.offset / fs.cluster_size]? with
  | none =>
    -- the offset is behind the last cluster
    rw [hc] at hnext
    have hend : (chains i).length * fs.cluster_size ≤ f.offset :=
      (Nat.le_div_iff_mul_le hcs).mp (List.getElem?_eq_none_iff.mp hc)
    rw [List.drop_of_length_le (by rwa [length_chain_bytes])]
    simp only [List.take_nil]
    exact ⟨1, [], f, Nat.one_pos,
      (bind_of_ok (x := getThe (FileSystem × File)) rfl).trans (bind_of_ok hnext),
      rfl, hf.at_offset_self⟩
  | some c =>
    rw [hc] at hnext
    have hlt := Nat.mod_lt f.offset hcs
    have hrun : File.read count (fs, f) = _ :=
      (bind_of_ok (x := getThe (FileSystem × File)) rfl).trans (bind_of_ok hnext)
    have hmost : fs.cluster_size - f.offset % fs.cluster_size = most fs.cluster_size f.offset := rfl
    obtain ⟨n, hn⟩ : ∃ n, n = min (min count (most fs.cluster_size f.offset))
      (inode.bytes.length - f.offset) := ⟨_, rfl⟩
    simp only [hf.bytes_left, Option.getD_some, hmost, ← hn] at hrun
    rw [hrun]
    by_cases hzero : n = 0
    · have hnone : min (min count (min 1 (most fs.cluster_size f.offset)))
        (inode.bytes.length - f.offset) = 0 := by
        omega
      refine ⟨1, [], f, Nat.one_pos, ?_, ?_, ?_⟩
      · rw [if_pos hzero]
        rfl
      · rw [hnone, List.take_zero]
      · rw [hnone, List.take_zero]
        exact hf.at_offset_self
    · obtain ⟨hk, rfl⟩ := List.getElem?_eq_some_iff.mp hc
      obtain ⟨e, he, hsize⟩ := hf.entry
      obtain ⟨k, hpos, hle, hread⟩ := on_disk_read h.geometry.serves
        (fs.offset_from_cluster (chains i)[f.offset / fs.cluster_size] + f.offset % fs.cluster_size)
        (Nat.pos_of_ne_zero hzero)
      have hserved : min (min count (min k (most fs.cluster_size f.offset)))
        (inode.bytes.length - f.offset) = k := by
        omega
      have hpart := chain_bytes_part (r := f.offset % fs.cluster_size) (n := k) fs hk (by omega)
      rw [Nat.div_add_mod'] at hpart
      rw [← hpart] at hread
      have hlen : ((List.drop f.offset (fs.chain_bytes (chains i))).take k).length = k := by
        rw [hpart, length_bytesAt]
      have hsome : ¬ ((List.drop f.offset (fs.chain_bytes (chains i))).take k).length = 0 := by
        omega
      rw [if_neg hzero]
      refine ⟨k, _, _, hpos, (bind_of_ok (in_fs_ok hread)).trans
        ((congrFun (if_neg hsome) (fs, f)).trans rfl), ?_, ?_⟩
      · rw [hserved]
      · rw [hserved, hlen, he]
        have hnamed := hf.named e he
        refine hf.advance hcs hc hpos (by omega) (by omega) ?_ ?_
        · split
          · rw [set_accessed_size, hsize]
          · exact hsize
        · split
          · rw [set_accessed_first, hnamed]
          · exact hnamed

/-! ### Writing -/

theorem set_modified_size (e : DirEntryEditor) (t : DateTime) :
    (e.set_modified t).data.file_size = e.data.file_size := by
  unfold DirEntryEditor.set_modified
  split <;> rfl

theorem set_first_cluster_size (e : DirEntryEditor) (c : Option Nat) (t : FatType) :
    (e.set_first_cluster c t).data.file_size = e.data.file_size := by
  unfold DirEntryEditor.set_first_cluster DirFileEntryData.set_first_cluster
  split
  · simp only
    split <;> rfl
  · rfl

theorem set_size_size {e : DirEntryEditor} (h : e.data.file_size = some n)
    {k : Nat} (hk : k ≤ MAX_FILE_SIZE) :
    (e.set_size k).data.file_size = some k := by
  have hfile : e.data.is_file = true := by
    unfold DirFileEntryData.file_size at h
    split at h
    · assumption
    · cases h
  have hlt : k < 2 ^ 32 := Nat.lt_of_le_sub_one (by decide) hk
  unfold DirEntryEditor.set_size
  rw [h]
  simp only
  split
  · show (if e.data.is_file then some (BitVec.ofNat 32 k).toNat else none) = some k
    rw [if_pos hfile, BitVec.toNat_ofNat, Nat.mod_eq_of_lt hlt]
  · simp_all

theorem update_dir_entry_size {options : FsOptions} (h : f.size = some n)
    (hmax : f.offset ≤ MAX_FILE_SIZE) :
    (f.update_dir_entry_after_write options).size = some (max n f.offset) := by
  obtain ⟨e, he, hsize⟩ := Option.bind_eq_some_iff.mp h
  unfold File.update_dir_entry_after_write File.size
  have hmod := set_modified_size e options.time_provider.get_current_date_time
  rw [hsize] at hmod
  simp only [he, Option.map_some, Option.bind_some, hmod, Option.elim_some, decide_eq_true_eq]
  split
  · rw [set_size_size hmod hmax, Nat.max_eq_right (by omega)]
  · rw [hmod, Nat.max_eq_left (by omega)]

theorem update_dir_entry_first {options : FsOptions} {t : FatType} {c : Option Nat}
    (h : ∀ e ∈ f.entry, e.data.first_cluster t = c) :
    ∀ e ∈ (f.update_dir_entry_after_write options).entry, e.data.first_cluster t = c := by
  unfold File.update_dir_entry_after_write
  intro e he
  obtain ⟨e', he', rfl⟩ := Option.map_eq_some_iff.mp he
  have hnamed :=
    (set_modified_first e' t options.time_provider.get_current_date_time).trans (h e' he')
  dsimp only
  split
  · rw [set_size_first, hnamed]
  · exact hnamed

theorem Holds.is_dir (h : Holds fs l f inode) : f.is_dir = false := by
  obtain ⟨e, he, hsize⟩ := h.entry
  unfold DirFileEntryData.file_size DirFileEntryData.is_file at hsize
  rw [File.is_dir, he]
  show e.data.is_dir = false
  cases hdir : e.data.is_dir with
  | false => rfl
  | true =>
    rw [hdir] at hsize
    cases hsize

theorem Geometry.named_by (hg : Geometry fs) {c : Nat} (hc : InRange fs.stop c) :
    0 < c ∧ c < bad_value fs.fat_type :=
  ⟨lt_of_lt_of_le Nat.two_pos hc.1, lt_of_lt_of_le hc.2 hg.covers.below⟩

theorem cluster_bytes_above {c : Nat} (hg : Geometry fs) (hsame : SameVolume fs fs')
    (hc : InRange fs.stop c) (hd : ∀ x, fs.data_start ≤ x → fs'.disk x = fs.disk x) :
    fs'.cluster_bytes c = fs.cluster_bytes c := by
  have hdata := hg.data_le hc
  exact cluster_bytes_same hsame fun x hx _ => hd x (le_trans hdata hx)

theorem Holds.written (h : Volume fs chains free) (hf : Holds fs (chains i) f inode)
    {k : Nat} (hk : k = f.offset / fs.cluster_size) (hlt : k < (chains i).length)
    {new : List Byte} (hn : 0 < new.length) (hmost : new.length ≤ most fs.cluster_size f.offset)
    (hmax : f.offset + new.length ≤ MAX_FILE_SIZE) (options : FsOptions)
    {inode' : Stream.Inode} (hb : inode'.bytes = splice inode.bytes f.offset new)
    (ho : inode'.offset = f.offset + new.length) (hd : fs'.disk =
    writeBytes fs.disk (fs.offset_from_cluster (chains i)[k] + f.offset % fs.cluster_size) new)
    (hsame : SameVolume fs fs')
    (hother : ∀ d ∈ chains i, d ≠ (chains i)[k] → fs'.cluster_bytes d = fs.cluster_bytes d) :
    Holds fs' (chains i) (({ f with
      offset := f.offset + new.length, current_cluster := some (chains i)[k] } :
      File).update_dir_entry_after_write options) inode' := by
  have hcs := h.geometry.cluster_size
  have hmod := Nat.mod_lt f.offset hcs
  have hdiv := Nat.div_add_mod' f.offset fs.cluster_size
  have hlen : (splice inode.bytes f.offset new).length =
    max inode.bytes.length (f.offset + new.length) := splice_length hf.inside
  have hend : f.offset + new.length ≤ (chains i).length * fs.cluster_size := by
    have hle : (k + 1) * fs.cluster_size ≤ (chains i).length * fs.cluster_size :=
      Nat.mul_le_mul_right _ hlt
    rw [Nat.succ_mul, hk] at hle
    unfold most at hmost
    omega
  have hfits := hf.fits
  refine ⟨ho.symm, hf.first, ?_, ?_, ?_, ?_, ?_⟩
  · show some (chains i)[k] = if f.offset + new.length =
      0 then none else (chains i)[(f.offset + new.length - 1) / fs'.cluster_size]?
    rw [if_neg (by omega), hsame.cluster_size, after_inside hcs hn hmost,
      ← hk, List.getElem?_eq_getElem hlt]
  · refine (update_dir_entry_size
      (f := { f with offset := f.offset + new.length, current_cluster := some (chains i)[k] })
      (n := inode.bytes.length) hf.size hmax).trans ?_
    rw [hb, hlen]
  · rw [hsame.fat_type]
    exact update_dir_entry_first hf.named
  · rw [hsame.cluster_size, hb]
    omega
  · have hsplice := chain_bytes_splice (r := f.offset % fs.cluster_size) hlt (h.partition.nodup i)
      (by unfold most at hmost; omega) hsame hd hother
    rw [hk, hdiv] at hsplice
    rw [hb, hlen, hsplice, ← splice_take _ hf.inside (by rwa [length_chain_bytes]), ← hf.bytes]

theorem Holds.at_end (h : Holds fs l f inode) (hcs : 0 < fs.cluster_size)
    (hnone : l[f.offset / fs.cluster_size]? = none) :
    f.offset = l.length * fs.cluster_size ∧ f.current_cluster = l.getLast? := by
  have hle : l.length * fs.cluster_size ≤ f.offset :=
    (Nat.le_div_iff_mul_le hcs).mp (List.getElem?_eq_none_iff.mp hnone)
  have hin := h.inside
  have hfits := h.fits
  have hoff : f.offset = l.length * fs.cluster_size := by omega
  refine ⟨hoff, ?_⟩
  rw [h.current]
  by_cases h0 : f.offset = 0
  · rw [if_pos h0]
    rw [h0] at hoff
    rcases Nat.mul_eq_zero.mp hoff.symm with hnil | hzero
    · rw [List.length_eq_zero_iff.mp hnil]
      rfl
    · omega
  · have hstart : f.offset % fs.cluster_size = 0 := by
      rw [hoff, Nat.mul_mod_left]
    have hprev := before_start hcs hstart h0
    rw [hoff, Nat.mul_div_cancel _ hcs] at hprev
    rw [if_neg h0, List.getLast?_eq_getElem?, hoff, ← hprev, Nat.add_sub_cancel, hprev]

theorem other_clusters {c d r : Nat} {new : List Byte} (hg : Geometry fs) (hc : InRange fs.stop c)
    (hd : InRange fs.stop d) (hne : d ≠ c) (h : r + new.length ≤ fs.cluster_size) :
    ({ fs with disk := writeBytes fs.disk (fs.offset_from_cluster c + r) new } :
      FileSystem).cluster_bytes d = fs.cluster_bytes d := by
  have hsame :=
    (SameVolume.refl fs).with_disk (writeBytes fs.disk (fs.offset_from_cluster c + r) new)
  refine cluster_bytes_same hsame fun x hx hx' =>
    writeBytes_sameOn _ _ _ x (x + 1) ?_ x (le_refl x) (Nat.lt_succ_self x)
  rcases Nat.lt_or_gt_of_ne hne with hlt | hgt
  · have hapart := hg.apart hd hc hlt
    exact .inl (by omega)
  · have hapart := hg.apart hc hd hgt
    exact .inr (by omega)

/-- What a request to one file leaves to the others. -/
structure Apart (fs : FileSystem) (chains : ι → List Nat) (i : ι) (fs' : FileSystem)
    (chains' : ι → List Nat) : Prop where
  same : SameVolume fs fs'
  below : Below fs fs'
  kept : ∀ j, j ≠ i → chains' j = chains j
  bytes : ∀ j, j ≠ i → ∀ c ∈ chains j, fs'.cluster_bytes c = fs.cluster_bytes c

theorem Apart.refl (fs : FileSystem) (chains : ι → List Nat) (i : ι) :
    Apart fs chains i fs chains :=
  ⟨.refl fs, .refl fs, fun _ _ => rfl, fun _ _ _ _ => rfl⟩

theorem Apart.trans {fs'' : FileSystem} {chains' chains'' : ι → List Nat}
    (h : Apart fs chains i fs' chains') (h' : Apart fs' chains' i fs'' chains'') :
    Apart fs chains i fs'' chains'' := by
  refine ⟨h.same.trans h'.same, h.below.trans h.same h'.below,
    fun j hj => (h'.kept j hj).trans (h.kept j hj), fun j hj c hc => ?_⟩
  rw [h'.bytes j hj c (by rwa [h.kept j hj]), h.bytes j hj c hc]

theorem Apart.holds {chains' : ι → List Nat} (h : Apart fs chains i fs' chains')
    {j : ι} (hj : j ≠ i) (hf : Holds fs (chains j) f inode) :
    Holds fs' (chains' j) f inode := by
  rw [h.kept j hj]
  exact hf.same h.same (h.bytes j hj)

theorem write_in_spec (h : Volume fs chains free) (hf : Holds fs (chains i) f inode)
    {c : Nat} (hc : (chains i)[f.offset / fs.cluster_size]? = some c) {new : List Byte}
    (hn : 0 < new.length) (hmost : new.length ≤ most fs.cluster_size f.offset)
    (hmax : f.offset + new.length ≤ MAX_FILE_SIZE) (options : FsOptions) :
    ∃ k fs' f', 0 < k ∧ k ≤ new.length ∧
      File.write_in options c (fs.offset_from_cluster c + f.offset % fs.cluster_size) new (fs, f) =
        .ok (.ok k, (fs', f')) ∧
      Volume fs' chains free ∧ Apart fs chains i fs' chains ∧
      Holds fs' (chains i) f' (inode.write new (some k)).2 := by
  obtain ⟨hk, rfl⟩ := List.getElem?_eq_some_iff.mp hc
  have hrange : ∀ j, ∀ d ∈ chains j, InRange fs.stop d := h.partition.inRange
  have hci := hrange i _ (List.getElem_mem hk)
  have hdata := h.geometry.data_le hci
  have hmod := Nat.mod_lt f.offset h.geometry.cluster_size
  obtain ⟨pos, hpos⟩ : ∃ pos, pos =
    fs.offset_from_cluster (chains i)[f.offset / fs.cluster_size] +
      f.offset % fs.cluster_size := ⟨_, rfl⟩
  obtain ⟨k, hk0, hle, hwrite⟩ := on_disk_write h.geometry.serves pos (List.length_pos_iff.mp hn)
  have hlen : (new.take k).length = k := by
    rw [List.length_take]
    omega
  have hroom : f.offset % fs.cluster_size + (new.take k).length ≤ fs.cluster_size := by
    unfold most at hmost
    omega
  have hsame := (SameVolume.refl fs).with_disk (writeBytes fs.disk pos (new.take k))
  have hother : ∀ d, InRange fs.stop d → d ≠ (chains i)[f.offset / fs.cluster_size] →
      ({ fs with disk := writeBytes fs.disk pos (new.take k) } : FileSystem).cluster_bytes d =
        fs.cluster_bytes d := by
    intro d hd hne
    rw [hpos]
    exact other_clusters h.geometry hci hd hne hroom
  have hb : (inode.write new (some k)).2.bytes = splice inode.bytes f.offset (new.take k) := by
    rw [hf.offset]
    rfl
  have ho : (inode.write new (some k)).2.offset = f.offset + (new.take k).length := by
    rw [hf.offset]
    rfl
  have hheld :=
    hf.written h rfl hk (by omega) (by omega) (by omega) options hb ho (by rw [hpos]) hsame
      fun d hd hne => hother d (hrange i d hd) hne
  have hsome : ¬ k = 0 := by omega
  rw [hlen] at hheld
  rw [← hpos]
  refine ⟨k, _, _, hk0, hle,
    (bind_of_ok (in_fs_ok hwrite)).trans ((congrFun (if_neg hsome) _).trans rfl),
    h.write (by omega) _, ⟨hsame, h.geometry.data_write_below (by omega) _,
      fun _ _ => rfl, fun j hj d hd => hother d (hrange j d hd) ?_⟩, hheld⟩
  rintro rfl
  exact h.partition.apart j i hj _ hd (List.getElem_mem hk)

/-- How much of a request to write is served. -/
def quota (cs o : Nat) : Nat := min (most cs o) (MAX_FILE_SIZE - o)

theorem write_marked (h : Volume fs chains free) (hf : Holds fs (chains i) f inode)
    {buf : List Byte} (hn : n = min buf.length (quota fs.cluster_size f.offset)) (h0 : n ≠ 0) :
    ∃ fs₁, Volume fs₁ chains free ∧ Apart fs chains i fs₁ chains ∧ Holds fs₁ (chains i) f inode ∧
      File.write buf (fs, f) = (do
        let c ← File.cluster_for_write
        File.write_in fs.options c (fs.offset_from_cluster c + f.offset % fs.cluster_size)
          (buf.take n) : FileM Nat)
          (fs₁, f) := by
  obtain ⟨fs₁, hdirty, hv, hsame, hbelow, -, -, hd⟩ := set_dirty_flag_spec h true
  have hbegin := h.geometry.begin_le_data
  have hflags := h.geometry.flags_lt
  have hbytes : ∀ j, ∀ c ∈ chains j, fs₁.cluster_bytes c = fs.cluster_bytes c := fun j c hc =>
    cluster_bytes_above h.geometry hsame (h.partition.inRange j c hc) fun x hx => hd x (by omega)
  have hrun : File.write buf (fs, f) = _ := bind_of_ok (x := getThe (FileSystem × File)) rfl
  unfold quota most at hn
  rw [← Nat.min_assoc] at hn
  simp only [← hn] at hrun
  rw [if_neg h0] at hrun
  exact ⟨fs₁, hv, ⟨hsame, hbelow, fun _ _ => rfl, fun j _ => hbytes j⟩,
    hf.same hsame (hbytes i), hrun.trans (bind_of_ok (in_fs_ok hdirty))⟩

theorem quota_most (cs o : Nat) : quota cs o ≤ most cs o := Nat.min_le_left _ _

/-- The file after its chain has got the cluster `c`. -/
def extended (fs : FileSystem) (f : File) (c : Nat) : File :=
  if f.first_cluster.isNone then f.set_first_cluster c fs.fat_type else f

theorem extended_offset (fs : FileSystem) (f : File) (c : Nat) :
    (extended fs f c).offset = f.offset := by
  unfold extended
  split <;> rfl

theorem extended_current (fs : FileSystem) (f : File) (c : Nat) :
    (extended fs f c).current_cluster = f.current_cluster := by
  unfold extended
  split <;> rfl

variable [DecidableEq ι]

theorem Allocated.bytes {c : Nat} (ha : Allocated fs chains free i false c fs')
    (hv : Volume fs chains free) (j : ι) {d : Nat} (hd : d ∈ chains j) :
    fs'.cluster_bytes d = fs.cluster_bytes d := by
  have hbegin := hv.geometry.begin_le_data
  have hflags := hv.geometry.flags_lt
  exact cluster_bytes_above hv.geometry ha.same (hv.partition.inRange j d hd) fun x hx =>
    ha.others x (by omega) (.inr hx) (.inr (.inr rfl))

theorem Allocated.apart {c : Nat} (ha : Allocated fs chains free i false c fs')
    (hv : Volume fs chains free) :
    Apart fs chains i fs' (Function.update chains i (chains i ++ [c])) :=
  ⟨ha.same, ha.below, fun _ hj => Function.update_of_ne hj _ _, fun j _ _ hd => ha.bytes hv j hd⟩

theorem Holds.extended {c : Nat} (h : Holds fs (chains i) f inode)
    (hv : Volume fs chains free) (ha : Allocated fs chains free i false c fs') :
    Holds fs' (chains i ++ [c]) (extended fs f c) inode := by
  have hcs := hv.geometry.cluster_size
  have hsame : ∀ d ∈ chains i, fs'.cluster_bytes d = fs.cluster_bytes d :=
    fun d hd => ha.bytes hv i hd
  have hcur := h.current
  have hfits := h.fits
  refine ⟨(extended_offset fs f c).trans h.offset, ?_, ?_, ?_, ?_, ?_, ?_⟩
  · have hfirst := h.first
    unfold Fatfs.extended
    cases hl : chains i with
    | nil =>
      rw [hl] at hfirst
      rw [hfirst]
      rfl
    | cons d l =>
      rw [hl] at hfirst
      rw [hfirst]
      exact hfirst
  · rw [extended_current, extended_offset, ha.same.cluster_size, hcur]
    by_cases h0 : f.offset = 0
    · rw [if_pos h0, if_pos h0]
    · rw [if_neg h0, if_neg h0, List.getElem?_append_left (h.before_lt hcs h0)]
  · have hsize := h.size
    unfold Fatfs.extended
    split
    · obtain ⟨e, he, hes⟩ := h.entry
      unfold File.set_first_cluster File.size
      rw [he]
      exact (set_first_cluster_size _ _ _).trans hes
    · exact hsize
  · have hfirst := h.first
    have hnamed := h.named
    rw [ha.same.fat_type]
    unfold Fatfs.extended
    cases hl : chains i with
    | nil =>
      rw [hl] at hfirst
      rw [hfirst]
      intro e he
      obtain ⟨e', _, rfl⟩ := Option.map_eq_some_iff.mp he
      refine set_first_cluster_first e' fs.fat_type ?_
      rintro _ ⟨rfl⟩
      exact hv.geometry.named_by ha.inRange
    | cons d l =>
      rw [hl] at hfirst hnamed
      rw [hfirst]
      exact hnamed
  · rw [ha.same.cluster_size, List.length_append, Nat.add_mul]
    omega
  · have hchain : fs'.chain_bytes (chains i ++ [c]) = fs.chain_bytes (chains i) ++
      fs'.chain_bytes [c] := by
      rw [← chain_bytes_same hsame]
      exact List.flatMap_append
    rw [hchain, List.take_append_of_le_length (by rwa [length_chain_bytes])]
    exact h.bytes

theorem cluster_for_write_spec (h : Volume fs chains free) (hf : Holds fs (chains i) f inode) :
    (∀ c, (chains i)[f.offset / fs.cluster_size]? = some c →
      File.cluster_for_write (fs, f) = .ok (.ok c, (fs, f))) ∧
    ((chains i)[f.offset / fs.cluster_size]? = none →
      (free = 0 → File.cluster_for_write (fs, f) = .ok (.error no_space, (fs, f))) ∧
      (0 < free → ∃ c fs', File.cluster_for_write (fs, f) = .ok (.ok c, (fs', extended fs f c)) ∧
        Allocated fs chains free i false c fs')) := by
  have hcs := h.geometry.cluster_size
  have hnext := next_cluster_spec h hf
  constructor
  · intro c hc
    rw [hc] at hnext
    exact (bind_of_ok (x := getThe (FileSystem × File)) rfl).trans (bind_of_ok hnext)
  · intro hnone
    obtain ⟨hoff, hlast⟩ := hf.at_end hcs hnone
    rw [hnone] at hnext
    have hrun : File.cluster_for_write (fs, f) = _ :=
      (bind_of_ok (x := getThe (FileSystem × File)) rfl).trans (bind_of_ok hnext)
    have hstart : f.offset % fs.cluster_size = 0 := by
      rw [hoff, Nat.mul_mod_left]
    simp only [if_pos hstart, hf.is_dir] at hrun
    rw [hrun]
    obtain ⟨hfull, hspace⟩ := @alloc_cluster_volume _ _ _ _ _ false i _ h hlast
    refine ⟨fun hfree => bind_of_error (in_fs_ok (hfull hfree)), fun hpos => ?_⟩
    obtain ⟨c, fs', halloc, hall⟩ := hspace hpos
    refine ⟨c, fs', (bind_of_ok (in_fs_ok halloc)).trans ?_, hall⟩
    unfold extended
    cases hfirst : f.first_cluster <;> rfl

theorem write_take (inode : Stream.Inode) (buf : List Byte) {k : Nat} (h : k ≤ n) :
    inode.write (buf.take n) (some k) = inode.write buf (some k) := by
  unfold Stream.Inode.write
  simp only [List.take_take, Nat.min_eq_left h]

theorem write_spec (h : Volume fs chains free) (hf : Holds fs (chains i) f inode) {buf : List Byte}
    (hn : n = min buf.length (quota fs.cluster_size f.offset)) (h0 : n ≠ 0) :
    (f.offset / fs.cluster_size < (chains i).length → ∃ k fs' f', 0 < k ∧ k ≤ n ∧
      File.write buf (fs, f) = .ok (.ok k, (fs', f')) ∧ Volume fs' chains free ∧
      Apart fs chains i fs' chains ∧
      Holds fs' (chains i) f' (inode.write buf (some k)).2) ∧
    (¬ f.offset / fs.cluster_size < (chains i).length →
      (free = 0 → ∃ fs', File.write buf (fs, f) = .ok (.error no_space, (fs', f)) ∧
        Volume fs' chains free ∧ Apart fs chains i fs' chains ∧ Holds fs' (chains i) f inode) ∧
      (0 < free → ∃ k fs' f' c, 0 < k ∧ k ≤ n ∧ File.write buf (fs, f) = .ok (.ok k, (fs', f')) ∧
        Volume fs' (Function.update chains i (chains i ++ [c])) (free - 1) ∧
        Apart fs chains i fs' (Function.update chains i (chains i ++ [c])) ∧
        Holds fs' (chains i ++ [c]) f' (inode.write buf (some k)).2)) := by
  obtain ⟨fs₁, hv, ha, hf₁, hrun⟩ := write_marked h hf hn h0
  obtain ⟨hin, hend⟩ := cluster_for_write_spec hv hf₁
  have hsize := hf.size_le
  have hinside := hf.inside
  have hlen : (buf.take n).length = n := by
    rw [List.length_take]
    omega
  have hmost : (buf.take n).length ≤ most fs.cluster_size f.offset := by
    have := quota_most fs.cluster_size f.offset
    omega
  have hmax : f.offset + (buf.take n).length ≤ MAX_FILE_SIZE := by
    unfold quota at hn
    omega
  have hpos : 0 < (buf.take n).length := by omega
  rw [ha.same.cluster_size] at hin hend
  constructor
  · intro hlt
    have hc := List.getElem?_eq_getElem hlt
    have hc₁ : (chains i)[f.offset / fs₁.cluster_size]? =
      some (chains i)[f.offset / fs.cluster_size] := by
      rw [ha.same.cluster_size, hc]
    obtain ⟨k, fs', f', hk, hle, hwrite, hv', ha', hf'⟩ :=
      write_in_spec hv hf₁ hc₁ hpos (by rwa [ha.same.cluster_size]) hmax fs.options
    rw [ha.same.offset_from_cluster, ha.same.cluster_size] at hwrite
    rw [hlen] at hle
    rw [write_take inode buf hle] at hf'
    exact ⟨k, fs', f', hk, hle, hrun.trans ((bind_of_ok (hin _ hc)).trans hwrite),
      hv', ha.trans ha', hf'⟩
  · intro hge
    have hnone := List.getElem?_eq_none_iff.mpr (Nat.le_of_not_lt hge)
    obtain ⟨hfull, hspace⟩ := hend hnone
    refine ⟨fun hfree => ⟨fs₁, hrun.trans (bind_of_error (hfull hfree)), hv, ha, hf₁⟩,
      fun hfree => ?_⟩
    obtain ⟨c, fs₂, hnew, hall⟩ := hspace hfree
    obtain ⟨hoff, _⟩ := hf.at_end h.geometry.cluster_size hnone
    have hsame := ha.same.trans hall.same
    have hf₂ := hf₁.extended hv hall
    have hself : Function.update chains i (chains i ++ [c]) i = chains i ++ [c] :=
      Function.update_self _ _ _
    have hc : (Function.update chains i
      (chains i ++ [c]) i)[(extended fs₁ f c).offset / fs₂.cluster_size]? = some c := by
      rw [hself, extended_offset, hsame.cluster_size, hoff,
        Nat.mul_div_cancel _ h.geometry.cluster_size,
        List.getElem?_concat_length]
    rw [← hself] at hf₂
    obtain ⟨k, fs', f', hk, hle, hwrite, hv', ha', hf'⟩ := write_in_spec hall.volume hf₂ hc hpos
      (by rwa [extended_offset, hsame.cluster_size]) (by rwa [extended_offset]) fs.options
    rw [hsame.offset_from_cluster, hsame.cluster_size, extended_offset] at hwrite
    rw [hlen] at hle
    rw [hself, write_take inode buf hle] at hf'
    exact ⟨k, fs', f', c, hk, hle, hrun.trans ((bind_of_ok hnew).trans hwrite), hv',
      (ha.trans (hall.apart hv)).trans ha', hf'⟩

end Open

end HectoOs.Fatfs
