import HectoOs.Fatfs.OpenFile

/-! # Seeking and truncating

The cluster of an offset is found along the chain. Truncating at the offset cuts the chain behind
it.
-/

open HectoOs.Lib

namespace HectoOs.Fatfs

section Open

variable {ι : Type} {fs fs' : FileSystem} {chains : ι → List Nat} {free : Nat}
  {i : ι} {l l' : List Nat} {f : File} {inode : Stream.Inode}
  {count n o : Nat}

/-! ## Seeking -/

/-- Where a request to seek leads, in signed 64-bit integers. -/
def seek_target (offset size : Nat) : SeekFrom → Int
  | .Start x => as_i64 x
  | .Current x => add_i64 offset x
  | .End x => add_i64 size x

theorem Holds.moved (h : Holds fs l f inode) {c : Option Nat} (hn : n = min o inode.bytes.length)
    (hc : c = if n = 0 then none else l[(n - 1) / fs.cluster_size]?) :
    Holds fs l { f with offset := n, current_cluster := c } (inode.at_offset o) :=
  ⟨hn, h.first, hc, h.size, h.named, h.fits, h.bytes⟩

/-- How many clusters are kept in front of the offset. -/
def kept_clusters (cs o : Nat) : Nat := if o = 0 then 0 else (o - 1) / cs + 1

variable [DecidableEq ι]

theorem Freed.bytes (ha : Freed fs chains free i l n fs') (hv : Volume fs chains free)
    (j : ι) {d : Nat} (hd : d ∈ chains j) :
    fs'.cluster_bytes d = fs.cluster_bytes d := by
  have hbegin := hv.geometry.begin_le_data
  have hflags := hv.geometry.flags_lt
  have hend := hv.geometry.fat_before_data
  exact cluster_bytes_above hv.geometry ha.same (hv.partition.inRange j d hd) fun x hx =>
    ha.outside x (by omega) (.inr (by omega))

theorem Freed.apart (ha : Freed fs chains free i l n fs') (hv : Volume fs chains free) :
    Apart fs chains i fs' (Function.update chains i l) :=
  ⟨ha.same, ha.below, fun _ hj => Function.update_of_ne hj _ _, fun j _ _ hd => ha.bytes hv j hd⟩

end Open

end HectoOs.Fatfs
