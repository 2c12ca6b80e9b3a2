import DemosOS.Fat.Seek
import DemosOS.Lib.Stream

/-!
# Reading and writing a file

`fat_file_read` delivers the bytes at the position, and `fat_file_write` puts bytes there, sector by
sector.  Behind each part they move on, and at the end of a chain this needs one more cluster.  If
none can be had, a read reports an error after it has delivered everything; a write reports success
and counts its last part, but the file does not grow by it.
-/

namespace DemosOS.Fat32

open Lib

/-- The file as its user sees it. -/
def File.stream (g : Geometry) (v : Volume) (cs : List Nat) (f : File) : Stream UInt8 where
  contents := (List.range f.size).map (f.byteAt g v cs)
  pos := f.offset

/-- The bytes in the sectors of the file up to its end or to `off`, in the middle of a write. -/
def File.seen (g : Geometry) (v : Volume) (cs : List Nat) (f : File) (off : Nat) : Stream UInt8 where
  contents := (List.range (max f.size off)).map (f.byteAt g v cs)
  pos := off

/-- The file cannot be continued at this offset, for this reason. -/
def Volume.Stuck (g : Geometry) (v : Volume) (cs : List Nat) (off : Nat) (e : Failure) : Prop :=
  (e = .code FAT_ERR_EOF ∧ off = 2 ^ 32) ∨
    (e = .code FAT_ERR_FULL ∧ off = cs.length * g.clustSize ∧ v.freeCnt ≤ 1)

section

variable {g : Geometry} {dirs rest : List (List Nat)} {s : Fat} {v v' : Volume} {cs cs' : List Nat}
  {f f' : File} {cnt i n q : Nat} {src : List UInt8}

/-! ## To the next part -/

theorem File.Open.sameData (h : f.Open g v cs) (hdata : v.SameData g v') : f.Open g v' cs :=
  { h with coherent := File.coherent_sameData hdata h.coherent h.ready.sect_mem }

theorem File.Open.offset_lt_alloc (h : f.Open g v cs) : f.offset < cs.length * g.clustSize :=
  (Nat.div_lt_iff_lt_mul g.clustSize_pos).mp (List.getElem?_eq_some_iff.mp h.clust).1

/-- A move within the sector or to the next one. -/
theorem advance_spec (hg : g.WellFormed) (h : Serving g dirs rest s v cs) (hf : f.Open g v cs)
    (hcnt : f.offset % 512 + cnt ≤ 512) :
    Yields (fatFileSeek g cnt .fromCurr) (s, f)
      (fun _ p ↦ ∃ v' cs', Served g dirs rest v cs p.1 v' cs' ∧ p.2.Open g v' cs' ∧
        p.2.toHandle = f.toHandle ∧ p.2.offset = f.offset + cnt ∧
        ∀ q < cs.length * g.clustSize, p.2.byteAt g v' cs' q = f.byteAt g v cs q)
      (fun e p ↦ ∃ v', Served g dirs rest v cs p.1 v' cs ∧ p.2 = f ∧ f.Open g v' cs ∧
        v.SameData g v' ∧ v.Stuck g cs (f.offset + cnt) e) := by
  have hoff := hf.offset_lt
  have htarget : f.target cnt .fromCurr = (f.offset + cnt : Nat) := (Int.natCast_add ..).symm
  refine Yields.get_bind ?_
  dsimp only
  rw [htarget, Int.toNat_natCast]
  refine Yields.ite (fun hend ↦ ?_) fun hin ↦ ?_
  · refine Yields.throw ⟨v, { h with pre := List.prefix_rfl, free := rfl, frame := fun _ _ _ ↦ rfl },
      rfl, hf, fun _ _ ↦ rfl, Or.inl ⟨rfl, ?_⟩⟩
    omega
  · refine (seekTo_spec hg h hf.ready (by omega)).mono ?_ ?_
    · rintro _ p ⟨v', cs', hserved, hopen, hhandle, hoffset, hbytes, -⟩
      exact ⟨v', cs', hserved, hopen, hhandle, hoffset, hbytes⟩
    · rintro e ⟨s', f'⟩ ⟨rfl, v', cs', c', h', hdata, hpre, hfree, hfull, rfl, i, hi,
        hc', hend⟩
      have hstep : (f.offset + cnt) / g.clustSize ≤ f.offset / g.clustSize + 1 := by
        have hsize : 512 ≤ g.clustSize := by
          rw [Geometry.clustSize_eq]
          exact Nat.le_mul_of_pos_right 512 g.clustSects_pos
        rw [← Nat.add_div_right _ g.clustSize_pos]
        exact Nat.div_le_div_right (by omega)
      obtain rfl : i = 0 := by omega
      have hlen := (List.getElem?_eq_some_iff.mp hf.clust).1
      have hle := hpre.length_le
      obtain rfl : cs = cs' := hpre.eq_of_length (by omega)
      obtain rfl : c' = f.clust := Option.some.inj (hc'.symm.trans hf.clust)
      refine ⟨v', { h' with
        pre := List.prefix_rfl, free := hfree, frame := fun n hn _ ↦ hdata n hn }, rfl,
        hf.sameData hdata, hdata, Or.inr ⟨rfl, ?_, ?_⟩⟩
      · -- the next part begins a cluster
        have hquot : (f.offset + cnt) / g.clustSize = cs.length := by omega
        have hmul := Nat.div_mul_le_self (f.offset + cnt) g.clustSize
        rw [hquot] at hmul
        have hlt := hf.offset_lt_alloc
        obtain ⟨k, hk⟩ : 512 ∣ cs.length * g.clustSize := by
          rw [Geometry.clustSize_eq]
          exact ⟨cs.length * 2 ^ g.clustShift, by ring⟩
        omega
      · have hone := h'.consistent.freeCnt_le hfull.1
        omega

/-! ## What is in the buffer -/

/-- The bytes of the sector that the file has in memory. -/
theorem File.Open.byte_buf (hg : g.WellFormed) (h : f.Open g v cs)
    (hcs : ∀ c ∈ cs, 2 ≤ c ∧ c < g.clustCnt) (hi : f.offset % 512 + i < 512) :
    f.buf.byte (f.offset % 512 + i) = f.byteAt g v cs (f.offset + i) := by
  have hdiv : (f.offset + i) / 512 = f.offset / 512 := by omega
  have hmod : (f.offset + i) % 512 = f.offset % 512 + i := by omega
  have hin : g.InClust f.sect f.clust := by
    rw [h.sect]
    refine Geometry.inClust_fileSect ?_
    rw [Geometry.div_clustSize]
    exact h.clust
  obtain ⟨hc, hlt⟩ := hcs _ (List.mem_of_getElem? h.clust)
  have hne : f.sect ≠ 0xffffffff := (hin.lt hg hc hlt).ne
  rw [File.byteAt, hdiv, hmod, ← h.sect, WriteBack.view_self (File.cache_key hne)]
  rfl

theorem Sector.slice_eq {b : Sector} {i n : Nat} {w : Nat → UInt8}
    (h : ∀ j < n, b.byte (i + j) = w j) : b.slice i n = (List.range n).map w :=
  List.map_congr_left fun j hj ↦ h j (List.mem_range.mp hj)

/-- What a read of the stream delivers. -/
theorem File.ahead_stream (f : File) (n : Nat) :
    (f.stream g v cs).ahead n =
      (List.range (min n (f.size - f.offset))).map fun j ↦ f.byteAt g v cs (f.offset + j) := by
  refine List.ext_getElem? fun i ↦ ?_
  unfold Stream.ahead File.stream
  dsimp only
  by_cases hi : i < min n (f.size - f.offset)
  · rw [List.getElem?_take_of_lt (by omega), List.getElem?_drop, List.getElem?_map,
      List.getElem?_map, List.getElem?_range (by omega), List.getElem?_range hi]
    rfl
  · rw [List.getElem?_eq_none, List.getElem?_eq_none]
    · rw [List.length_map, List.length_range]
      exact Nat.le_of_not_lt hi
    · rw [List.length_take, List.length_drop, List.length_map, List.length_range]
      exact Nat.le_of_not_lt hi

theorem Served.trans {v'' : Volume} {cs'' : List Nat} {s' s'' : Fat}
    (h : Served g dirs rest v cs s' v' cs') (h' : Served g dirs rest v' cs' s'' v'' cs'') :
    Served g dirs rest v cs s'' v'' cs'' :=
  { h' with
    pre := h.pre.trans h'.pre
    free := h'.free.trans h.free
    frame := fun n hn hcs ↦ (h'.frame n hn hcs).trans
      (h.frame n hn fun c hc ↦ hcs c (h'.pre.subset hc)) }

theorem Serving.served (h : Serving g dirs rest s v cs) : Served g dirs rest v cs s v cs :=
  { h with pre := List.prefix_rfl, free := rfl, frame := fun _ _ _ ↦ rfl }

/-! ## fat_file_read -/

/-- The loop of `fat_file_read` has delivered `k` bytes. -/
structure Reading (g : Geometry) (dirs rest : List (List Nat)) (v : Volume) (cs : List Nat) (f : File)
    (len k : Nat) (b : Nat × List UInt8) (p : Fat × File) : Prop where
  le : k ≤ min len (f.size - f.offset)
  vars : b = (len - k, (f.stream g v cs).ahead k)
  state : ∃ v' cs', Served g dirs rest v cs p.1 v' cs' ∧ p.2.Open g v' cs' ∧
    p.2.toHandle = f.toHandle ∧ p.2.offset = f.offset + k ∧
    ∀ q < cs.length * g.clustSize, p.2.byteAt g v' cs' q = f.byteAt g v cs q

/-- What a read delivers and leaves. -/
def ReadDone (g : Geometry) (dirs rest : List (List Nat)) (v : Volume) (cs : List Nat) (f : File)
    (len : Nat) (r : List UInt8 × Except Failure Unit) (p : Fat × File) : Prop :=
  r.1 = (f.stream g v cs).ahead len ∧ ∃ v' cs', Served g dirs rest v cs p.1 v' cs' ∧
    p.2.Open g v' cs' ∧ p.2.toHandle = f.toHandle ∧
    (∀ q < cs.length * g.clustSize, p.2.byteAt g v' cs' q = f.byteAt g v cs q) ∧
    (r.2 = .ok ⟨⟩ ∧ p.2.offset = f.offset + r.1.length ∨
      r.2 = .error (.code FAT_ERR_FULL) ∧ f.offset + r.1.length = f.size ∧
        f.size = cs'.length * g.clustSize ∧ v'.freeCnt ≤ 1)

theorem Reading.round (hg : g.WellFormed) {len k : Nat} {b : Nat × List UInt8} {p : Fat × File}
    (hf : f.Open g v cs) (h : Reading g dirs rest v cs f len k b p) :
    Yields (readRound g b) p
      (fun r p' ↦ r.elim (fun r ↦ ReadDone g dirs rest v cs f len r p')
        fun b' ↦ ∃ k', k < k' ∧ Reading g dirs rest v cs f len k' b' p')
      fun _ _ ↦ False := by
  obtain ⟨s₁, f₁⟩ := p
  obtain ⟨v₁, cs₁, h₁, hf₁, hhandle, hoffset, hbytes⟩ := h.state
  have hle := h.le
  have hsize : f₁.size = f.size := congrArg Handle.size hhandle
  have hsize_le := hf.size_le
  obtain rfl := h.vars
  dsimp only at h₁ hf₁ hhandle hoffset hbytes
  refine Yields.get_bind (Yields.ite (fun hmore ↦ ?_) fun hdone ↦ ?_)
  · dsimp only at hmore ⊢
    generalize hcnt : min (len - k) (min (512 - f₁.offset % 512) (f₁.size - f₁.offset)) = cnt
    have hslice : f₁.buf.slice (f₁.offset % 512) cnt =
        (List.range cnt).map fun j ↦ f.byteAt g v cs (f.offset + k + j) := by
      refine Sector.slice_eq fun j hj ↦ ?_
      rw [hf₁.byte_buf hg (fun c hc ↦ h₁.range hc) (by omega), hbytes _ (by omega), hoffset]
    have hdelivered : (f.stream g v cs).ahead k ++ f₁.buf.slice (f₁.offset % 512) cnt =
        (f.stream g v cs).ahead (k + cnt) := by
      have hmin : min k (f.size - f.offset) = k := by omega
      have hmin' : min (k + cnt) (f.size - f.offset) = k + cnt := by omega
      rw [hslice, File.ahead_stream, File.ahead_stream, hmin, hmin', List.range_add, List.map_append,
        List.map_map]
      congr 1
      refine List.map_congr_left fun j _ ↦ ?_
      rw [Function.comp_apply, Nat.add_assoc]
    rw [hdelivered]
    refine Yields.bind (Q := fun r p ↦ (r = .ok ⟨⟩ ∧ ∃ v' cs', Served g dirs rest v₁ cs₁ p.1 v' cs' ∧
      p.2.Open g v' cs' ∧ p.2.toHandle = f₁.toHandle ∧ p.2.offset = f₁.offset + cnt ∧
      ∀ q < cs₁.length * g.clustSize, p.2.byteAt g v' cs' q = f₁.byteAt g v₁ cs₁ q) ∨
      ∃ e v', r = .error e ∧ Served g dirs rest v₁ cs₁ p.1 v' cs₁ ∧ p.2 = f₁ ∧ f₁.Open g v' cs₁ ∧
        v₁.SameData g v' ∧ v₁.Stuck g cs₁ (f₁.offset + cnt) e)
      (Yields.attempt ((advance_spec hg h₁.toServing hf₁ (by omega)).mono (fun _ _ h ↦ Or.inl ⟨rfl, h⟩)
        fun e _ ⟨v', hE⟩ ↦ Or.inr ⟨e, v', rfl, hE⟩)) ?_
    have halloc : cs.length * g.clustSize ≤ cs₁.length * g.clustSize :=
      Nat.mul_le_mul_right _ h₁.pre.length_le
    rintro _ ⟨s₂, f₂⟩ (⟨rfl, v₂, cs₂, h₂, hf₂, hhandle₂, hoffset₂, hbytes₂⟩ |
      ⟨e, v₂, rfl, h₂, hsame, hf₂, hdata, hstuck⟩)
    · refine Yields.pure ⟨k + cnt, by omega, by omega, ?_, v₂, cs₂, h₁.trans h₂, hf₂,
        hhandle₂.trans hhandle, by omega, fun q hq ↦ ?_⟩
      · rw [Nat.sub_sub]
      · exact (hbytes₂ q (by omega)).trans (hbytes q hq)
    · -- everything has been delivered
      dsimp only at h₂ hsame
      subst hsame
      have hone := h₂.free
      have hend : e = .code FAT_ERR_FULL ∧ f₂.offset + cnt = cs₁.length * g.clustSize ∧
          v₁.freeCnt ≤ 1 := by
        rcases hstuck with ⟨-, hmax⟩ | hfull
        · have hlt := hf.size_lt
          omega
        · exact hfull
      have htotal : min len (f.size - f.offset) = k + cnt := by omega
      have hlength : ((f.stream g v cs).ahead (k + cnt)).length = k + cnt := by
        rw [File.ahead_stream, List.length_map, List.length_range]
        omega
      refine Yields.pure ⟨?_, v₂, cs₁, h₁.trans h₂, hf₂, hhandle, fun q hq ↦ ?_, Or.inr ⟨?_, ?_, ?_, ?_⟩⟩
      · dsimp only
        rw [File.ahead_stream, File.ahead_stream, htotal]
        congr 2
        omega
      · refine (File.byteAt_congr List.prefix_rfl (fun n hn ↦ File.view_sameData hdata hn)
          (by omega)).trans (hbytes q hq)
      · rw [hend.1]
      · dsimp only
        omega
      · omega
      · omega
  · dsimp only at hdone
    have hlen : (f.stream g v cs).ahead k = (f.stream g v cs).ahead len := by
      rw [File.ahead_stream, File.ahead_stream]
      congr 2
      omega
    have hlength : ((f.stream g v cs).ahead k).length = k := by
      rw [File.ahead_stream, List.length_map, List.length_range]
      omega
    refine Yields.pure ⟨hlen, v₁, cs₁, h₁, hf₁, hhandle, hbytes, Or.inl ⟨rfl, ?_⟩⟩
    dsimp only
    rw [hlength]
    exact hoffset

/-- A read delivers what is ahead, up to the end of the file.  It reports an error only if the file
ends with its last cluster and no other one can be had. -/
theorem fatFileRead_spec (hg : g.WellFormed) (h : Serving g dirs rest s v cs) (hf : f.Open g v cs)
    (hread : f.flags &&& FAT_READ ≠ 0) (len : Nat) :
    Yields (fatFileRead g len) (s, f)
      (fun r p ↦ ReadDone g dirs rest v cs { f with accessed := true } len r p) fun _ _ ↦ False := by
  have hf' : File.Open g v { f with accessed := true } cs :=
    ⟨⟨hf.head, hf.clust, hf.size_le, hf.size_lt, hf.offset_lt⟩, hf.sect, hf.coherent⟩
  refine Yields.get_bind ?_
  refine Yields.ite (fun hdenied ↦ absurd hdenied hread) fun _ ↦ Yields.modify_bind ?_
  refine Yields.iterate_of_variant (I := fun n b p ↦ ∃ k, n + k = len ∧
    Reading g dirs rest v cs { f with accessed := true } len k b p) (k := len) ?_
    ⟨0, Nat.add_zero len, Nat.zero_le _, ?_, v, cs, h.served, hf', rfl, rfl, fun _ _ ↦ rfl⟩
    (Nat.lt_succ_self len)
  · rintro n b p ⟨k, hn, hreading⟩
    refine (hreading.round hg hf').mono ?_ fun _ _ hE ↦ hE
    intro r p' hr
    cases r with
    | inl r => exact hr
    | inr b' =>
        obtain ⟨k', hk, hreading'⟩ := hr
        have hle := hreading'.le
        exact ⟨len - k', by omega, k', by omega, hreading'⟩
  · rw [File.ahead_stream, Nat.zero_min, Nat.sub_zero]
    rfl

/-! ## fat_file_write -/

/-- Bytes are put into the sector in memory. -/
theorem File.Open.splice (hg : g.WellFormed) (h : f.Open g v cs)
    (hcs : ∀ c ∈ cs, 2 ≤ c ∧ c < g.clustCnt) (hnodup : cs.Nodup)
    (hlen : f.offset % 512 + src.length ≤ 512) :
    File.Open g v { f with buf := f.buf.splice (f.offset % 512) src, dirty := true } cs ∧
      ∀ q < cs.length * g.clustSize,
        File.byteAt g v cs { f with buf := f.buf.splice (f.offset % 512) src, dirty := true } q =
          if f.offset ≤ q ∧ q < f.offset + src.length then src.getD (q - f.offset) 0
          else f.byteAt g v cs q := by
  have hin : g.InClust f.sect f.clust := by
    rw [h.sect]
    refine Geometry.inClust_fileSect ?_
    rw [Geometry.div_clustSize]
    exact h.clust
  obtain ⟨hc, hlt⟩ := hcs _ (List.mem_of_getElem? h.clust)
  have hkey : (f.cache v).key = some f.sect := File.cache_key (hin.lt hg hc hlt).ne
  have hview := WriteBack.view_edit hkey fun b ↦ b.splice (f.offset % 512) src
  refine ⟨⟨⟨h.head, h.clust, h.size_le, h.size_lt, h.offset_lt⟩, h.sect,
    WriteBack.coherent_edit hkey fun b ↦ b.splice (f.offset % 512) src⟩, fun q hq ↦ ?_⟩
  have hbyte : File.byteAt g v cs
      { f with buf := f.buf.splice (f.offset % 512) src, dirty := true } q =
      (Function.update (f.cache v).view f.sect
        (((f.cache v).view f.sect).splice (f.offset % 512) src) (g.fileSect cs (q / 512))).byte
          (q % 512) := by
    rw [← hview]
    rfl
  rw [hbyte]
  by_cases hsame : q / 512 = f.offset / 512
  · rw [hsame, ← h.sect, Function.update_self, Sector.splice, Block.byte_patch hlen, File.byteAt,
      hsame, ← h.sect]
    by_cases hq' : f.offset ≤ q ∧ q < f.offset + src.length
    · rw [if_pos hq', if_pos (by omega)]
      congr 1
      omega
    · rw [if_neg hq', if_neg (by omega)]
  · have hplace : ∀ p, p < cs.length * g.clustSize → p / 512 / 2 ^ g.clustShift < cs.length := by
      intro p hp
      rw [Geometry.div_clustSize]
      exact (Nat.div_lt_iff_lt_mul g.clustSize_pos).mpr hp
    have hne : g.fileSect cs (q / 512) ≠ f.sect := by
      rw [h.sect]
      intro heq
      exact hsame (Geometry.fileSect_inj (fun c hc ↦ (hcs c hc).1) hnodup (hplace q hq)
        (hplace _ h.offset_lt_alloc) heq)
    rw [Function.update_of_ne hne, if_neg (by omega)]
    rfl

/-- A part of a write, seen from the stream. -/
theorem File.seen_writes {off : Nat} (hsize : f'.size = f.size)
    (hbytes : ∀ q < max f.size (off + src.length), f'.byteAt g v' cs' q =
      if off ≤ q ∧ q < off + src.length then src.getD (q - off) 0 else f.byteAt g v cs q) :
    (f.seen g v cs off).Writes src (f'.seen g v' cs' (off + src.length)) where
  pos := rfl
  length := by
    unfold seen
    dsimp only
    rw [List.length_map, List.length_map, List.length_range, List.length_range, hsize]
    omega
  written i hi := by
    unfold seen
    dsimp only
    rw [List.getElem?_map, List.getElem?_range (by omega), Option.map_some, hbytes _ (by omega),
      if_pos ⟨Nat.le_add_right _ _, by omega⟩, Nat.add_sub_cancel_left,
      List.getD_eq_getElem?_getD, List.getElem?_eq_getElem hi, Option.getD_some]
  kept p hp hout := by
    unfold seen at hp hout ⊢
    rw [List.length_map, List.length_range] at hp
    dsimp only at hout
    rw [List.getElem?_map, List.getElem?_map, List.getElem?_range (by omega),
      List.getElem?_range hp, Option.map_some, Option.map_some, hbytes _ (by omega),
      if_neg (by omega)]

theorem File.seen_writes_nil (f : File) (off : Nat) :
    (f.seen g v cs off).Writes [] (f.seen g v cs off) :=
  seen_writes rfl fun _ _ ↦ (if_neg fun hin ↦ absurd hin.2 (Nat.not_lt_of_le hin.1)).symm

/-- The loop of `fat_file_write` has written `k` bytes. -/
structure Writing (g : Geometry) (dirs rest : List (List Nat)) (v : Volume) (cs : List Nat) (f : File)
    (src : List UInt8) (k : Nat) (b : List UInt8 × Nat) (p : Fat × File) : Prop where
  le : k ≤ src.length
  vars : b = (src.drop k, k)
  state : ∃ v' cs', Served g dirs rest v cs p.1 v' cs' ∧ p.2.Open g v' cs' ∧
    p.2.toHandle = f.toHandle ∧ p.2.offset = f.offset + k ∧
    (f.seen g v cs f.offset).Writes (src.take k) (p.2.seen g v' cs' (f.offset + k))

/-- What the loop of a write leaves, which reports `r` bytes: they are in the sectors of the file, but
the last part is not counted if the file could not be continued behind it. -/
def WriteDone (g : Geometry) (dirs rest : List (List Nat)) (v : Volume) (cs : List Nat) (f : File)
    (src : List UInt8) (r : Nat) (p : Fat × File) : Prop :=
  ∃ v' cs', Served g dirs rest v cs p.1 v' cs' ∧ p.2.Open g v' cs' ∧ p.2.toHandle = f.toHandle ∧
    r ≤ src.length ∧ (f.seen g v cs f.offset).Writes (src.take r) (p.2.seen g v' cs' (f.offset + r)) ∧
    (r = src.length ∧ p.2.offset = f.offset + r ∨
      (p.2.offset < f.offset + r ∧ f.offset + r ≤ p.2.offset + 512 ∧
        ∃ e, v'.Stuck g cs' (f.offset + r) e))

theorem Writing.round (hg : g.WellFormed) {k : Nat} {b : List UInt8 × Nat} {p : Fat × File}
    (h : Writing g dirs rest v cs f src k b p) :
    Yields (writeRound g b) p
      (fun r p' ↦ r.elim (fun r ↦ WriteDone g dirs rest v cs f src r p')
        fun b' ↦ ∃ k', k < k' ∧ Writing g dirs rest v cs f src k' b' p')
      fun _ _ ↦ False := by
  obtain ⟨s₁, f₁⟩ := p
  obtain ⟨v₁, cs₁, h₁, hf₁, hhandle, hoffset, hwrites⟩ := h.state
  have hle := h.le
  have hsize : f₁.size = f.size := congrArg Handle.size hhandle
  obtain rfl := h.vars
  dsimp only at h₁ hf₁ hhandle hoffset hwrites
  refine Yields.get_bind (Yields.ite (fun hmore ↦ ?_) fun hdone ↦ ?_)
  · have hmore' : k < src.length := by
      refine Nat.lt_of_not_le fun hge ↦ hmore (List.drop_eq_nil_of_le hge)
    dsimp only
    generalize hcnt : min (src.drop k).length (512 - f₁.offset % 512) = cnt
    rw [List.length_drop] at hcnt
    generalize hpart : (src.drop k).take cnt = part
    have hlength : part.length = cnt := by
      rw [← hpart, List.length_take, List.length_drop]
      omega
    have htake : src.take k ++ part = src.take (k + cnt) := by
      rw [← hpart, List.take_add]
    have hfits : f₁.offset % 512 + part.length ≤ 512 := by omega
    obtain ⟨hopen, hsplice⟩ := hf₁.splice hg (fun c hc ↦ h₁.range hc) h₁.chain.nodup hfits
    have halloc : f₁.offset + cnt ≤ cs₁.length * g.clustSize := by
      have hlt := hf₁.offset_lt_alloc
      obtain ⟨m, hm⟩ : 512 ∣ cs₁.length * g.clustSize := by
        rw [Geometry.clustSize_eq]
        exact ⟨cs₁.length * 2 ^ g.clustShift, by ring⟩
      omega
    have hsize_le := hf₁.size_le
    refine Yields.modify_bind (Yields.bind (Q := fun r p ↦ (∃ v' cs', r = .ok ⟨⟩ ∧
      Served g dirs rest v₁ cs₁ p.1 v' cs' ∧ p.2.Open g v' cs' ∧ p.2.toHandle = f₁.toHandle ∧
      p.2.offset = f₁.offset + cnt ∧ (f₁.seen g v₁ cs₁ (f.offset + k)).Writes part
        (p.2.seen g v' cs' (f.offset + k + part.length))) ∨
      ∃ e v', r = .error e ∧ Served g dirs rest v₁ cs₁ p.1 v' cs₁ ∧ p.2.Open g v' cs₁ ∧
        p.2.toHandle = f₁.toHandle ∧ p.2.offset = f₁.offset ∧
        v₁.Stuck g cs₁ (f₁.offset + cnt) e ∧ (f₁.seen g v₁ cs₁ (f.offset + k)).Writes part
          (p.2.seen g v' cs₁ (f.offset + k + part.length)))
      (Yields.attempt ((advance_spec hg h₁.toServing hopen ?_).mono ?_ ?_)) ?_)
    · dsimp only
      omega
    · rintro _ ⟨s₂, f₂⟩ ⟨v₂, cs₂, h₂, hf₂, hhandle₂, hoffset₂, hbytes₂⟩
      refine Or.inl ⟨v₂, cs₂, rfl, h₂, hf₂, hhandle₂, hoffset₂,
        File.seen_writes (congrArg Handle.size hhandle₂) fun q hq ↦ ?_⟩
      rw [hbytes₂ q (by omega), hsplice q (by omega), hoffset]
    · rintro e ⟨s₂, f₂⟩ ⟨v₂, h₂, rfl, hf₂, hdata, hstuck⟩
      refine Or.inr ⟨e, v₂, rfl, h₂, hf₂, rfl, rfl, hstuck, File.seen_writes rfl fun q hq ↦ ?_⟩
      rw [File.byteAt_congr List.prefix_rfl (fun n hn ↦ File.view_sameData hdata hn) (by omega),
        hsplice q (by omega), hoffset]
    · rintro _ ⟨s₂, f₂⟩ (⟨v₂, cs₂, rfl, h₂, hf₂, hhandle₂, hoffset₂, hwrites₂⟩ |
        ⟨e, v₂, rfl, h₂, hf₂, hhandle₂, hoffset₂, hstuck, hwrites₂⟩)
      · dsimp only at h₂ hf₂ hhandle₂ hoffset₂ hwrites₂
        have htrans := hwrites.trans hwrites₂
        rw [htake, hlength, Nat.add_assoc] at htrans
        refine Yields.pure ⟨k + cnt, by omega, by omega, ?_, v₂, cs₂, h₁.trans h₂, hf₂,
          hhandle₂.trans hhandle, ?_, htrans⟩
        · rw [List.drop_drop]
        · dsimp only
          omega
      · dsimp only at h₂ hf₂ hhandle₂ hoffset₂ hwrites₂
        have htrans := hwrites.trans hwrites₂
        rw [htake, hlength, Nat.add_assoc] at htrans
        refine Yields.pure ⟨v₂, cs₁, h₁.trans h₂, hf₂, hhandle₂.trans hhandle, by omega, htrans,
          Or.inr ⟨?_, ?_, e, ?_⟩⟩
        · dsimp only
          omega
        · dsimp only
          omega
        · have hfree := h₂.free
          rw [hoffset, Nat.add_assoc] at hstuck
          exact hstuck.imp_right fun ⟨he, hoff, hone⟩ ↦ ⟨he, hoff, by omega⟩
  · have hlen : k = src.length := by
      refine Nat.le_antisymm hle (List.drop_eq_nil_iff.mp (not_not.mp hdone))
    exact Yields.pure ⟨v₁, cs₁, h₁, hf₁, hhandle, hle, hwrites, Or.inl ⟨hlen, hoffset⟩⟩

/-- What a write leaves that reports `r` bytes. -/
structure WriteLeft (g : Geometry) (dirs rest : List (List Nat)) (v : Volume) (cs : List Nat) (f : File)
    (src : List UInt8) (r : Nat) (p : Fat × File) (v' : Volume) (cs' : List Nat) : Prop where
  served : Served g dirs rest v cs p.1 v' cs'
  isOpen : p.2.Open g v' cs'
  handle : p.2.toHandle =
    { f.toHandle with modified := true, accessed := true, size := max f.size p.2.offset }
  le : r ≤ src.length
  /-- All bytes that are reported are in the sectors of the file. -/
  writes : (f.seen g v cs f.offset).Writes (src.take r) (p.2.seen g v' cs' (f.offset + r))
  /-- They belong to the file, but for the last part if no cluster can be had behind it. -/
  counted : r = src.length ∧ p.2.offset = f.offset + r ∨
    (p.2.offset < f.offset + r ∧ f.offset + r ≤ p.2.offset + 512 ∧
      ∃ e, v'.Stuck g cs' (f.offset + r) e)

/-- A write never reports an error. -/
theorem fatFileWrite_spec (hg : g.WellFormed) (h : Serving g dirs rest s v cs) (hf : f.Open g v cs)
    (hwrite : f.flags &&& FAT_WRITE ≠ 0) (src : List UInt8) :
    Yields (fatFileWrite g src) (s, f)
      (fun r p ↦ r.2 = .ok ⟨⟩ ∧ ∃ v' cs', WriteLeft g dirs rest v cs f src r.1 p v' cs')
      fun _ _ ↦ False := by
  have hf' : File.Open g v { f with modified := true, accessed := true } cs :=
    ⟨⟨hf.head, hf.clust, hf.size_le, hf.size_lt, hf.offset_lt⟩, hf.sect, hf.coherent⟩
  refine Yields.get_bind (Yields.ite (fun hdenied ↦ absurd hdenied hwrite) fun _ ↦ ?_)
  refine Yields.modify_bind (Yields.bind (Q := fun r p ↦
    WriteDone g dirs rest v cs { f with modified := true, accessed := true } src r p) ?_ ?_)
  · refine Yields.iterate_of_variant (I := fun n b p ↦ ∃ k, n + k = src.length ∧
      Writing g dirs rest v cs { f with modified := true, accessed := true } src k b p)
      (k := src.length) ?_ ⟨0, Nat.add_zero _, Nat.zero_le _, rfl, v, cs, h.served, hf', rfl, rfl,
        File.seen_writes_nil _ _⟩ (Nat.lt_succ_self _)
    · rintro n b p ⟨k, hn, hwriting⟩
      refine (hwriting.round hg).mono ?_ fun _ _ hE ↦ hE
      intro r p' hr
      cases r with
      | inl r => exact hr
      | inr b' =>
          obtain ⟨k', hk, hwriting'⟩ := hr
          have hle := hwriting'.le
          exact ⟨src.length - k', by omega, k', by omega, hwriting'⟩
  · rintro r ⟨s₁, f₁⟩ ⟨v₁, cs₁, h₁, hf₁, hhandle, hle, hwrites, hcounted⟩
    dsimp only at hf₁ hhandle hcounted
    have hsize : f₁.size = f.size := (congrArg Handle.size hhandle :)
    have hmax : (if f₁.offset > f₁.size then f₁.offset else f₁.size) = max f.size f₁.offset := by
      rw [hsize]
      split_ifs
      all_goals omega
    have hlt := hf₁.offset_lt_alloc
    have hsize_le := hf₁.size_le
    have hsize_lt := hf₁.size_lt
    have hoffset_lt := hf₁.offset_lt
    have hoffset : f₁.offset ≤ f.offset + r := by omega
    refine Yields.modify_bind (Yields.pure ?_)
    dsimp only
    rw [hmax]
    refine ⟨rfl, v₁, cs₁, h₁, ⟨⟨hf₁.head, hf₁.clust, ?_, ?_, hf₁.offset_lt⟩, hf₁.sect,
      hf₁.coherent⟩, ?_, hle, ?_, hcounted⟩
    · dsimp only
      omega
    · dsimp only
      omega
    · exact congrArg (fun t : Handle ↦ { t with size := max f.size f₁.offset }) hhandle
    · have hseen : File.seen g v₁ cs₁ { f₁ with size := max f.size f₁.offset } (f.offset + r) =
          f₁.seen g v₁ cs₁ (f.offset + r) := by
        have hlen : max (max f.size f₁.offset) (f.offset + r) = max f.size (f.offset + r) := by omega
        unfold File.seen
        dsimp only
        rw [hsize, hlen]
        rfl
      rw [hseen]
      exact hwrites

/-- The size of a file is brought up to its position. -/
theorem File.stream_writes_nil (f : File) :
    (f.stream g v cs).Writes [] (f.seen g v cs f.offset) where
  pos := rfl
  length := by
    unfold stream seen
    rw [List.length_map, List.length_map, List.length_range, List.length_range]
  written i hi := absurd hi (Nat.not_lt_zero i)
  kept p hp _ := by
    unfold stream seen at *
    dsimp only at *
    rw [List.length_map, List.length_range] at hp
    rw [List.getElem?_map, List.getElem?_map, List.getElem?_range (by omega),
      List.getElem?_range hp]

/-- A write that has moved the position behind all its bytes is a write of the stream. -/
theorem WriteLeft.stream {r : Nat} {p : Fat × File}
    (h : WriteLeft g dirs rest v cs f src r p v' cs') (hr : r = src.length)
    (hoffset : p.2.offset = f.offset + r) :
    (f.stream g v cs).Writes src (p.2.stream g v' cs') := by
  have hsize : p.2.size = max f.size p.2.offset := congrArg Handle.size h.handle
  have hseen : p.2.seen g v' cs' (f.offset + r) = p.2.stream g v' cs' := by
    unfold File.seen File.stream
    rw [← hoffset, hsize, Nat.max_assoc, Nat.max_self]
  have hwrites := f.stream_writes_nil.trans h.writes
  rwa [hseen, List.nil_append, hr, List.take_length] at hwrites

/-- Of the clusters that make room for `n` bytes, two are free where the chain has no more than `n`. -/
theorem Geometry.two_le_free {len len' free free' : Nat} (hroom : n / g.clustSize + 2 ≤ len + free)
    (htotal : free' + len' = free + len) (hend : len' * g.clustSize ≤ n) : 2 ≤ free' := by
  have hquot := (Nat.le_div_iff_mul_le g.clustSize_pos).mpr hend
  omega

/-- With a cluster to spare, a write is a write of the stream. -/
theorem WriteLeft.of_room {r : Nat} {p : Fat × File}
    (h : WriteLeft g dirs rest v cs f src r p v' cs')
    (hroom : (f.offset + src.length) / g.clustSize + 2 ≤ cs.length + v.freeCnt)
    (hmax : f.offset + src.length < 2 ^ 32) :
    r = src.length ∧ (f.stream g v cs).Writes src (p.2.stream g v' cs') := by
  have hle := h.le
  rcases h.counted with ⟨hr, hoffset⟩ | ⟨-, -, e, ⟨-, hend⟩ | ⟨-, hend, hone⟩⟩
  · exact ⟨hr, h.stream hr hoffset⟩
  · omega
  · have hfree := Geometry.two_le_free hroom h.served.free (by omega)
    omega

/-- With a cluster to spare, all bytes are written and reported, and they are read again. -/
theorem fatFileWrite_of_room (hg : g.WellFormed) (h : Serving g dirs rest s v cs)
    (hf : f.Open g v cs) (hwrite : f.flags &&& FAT_WRITE ≠ 0)
    (hroom : (f.offset + src.length) / g.clustSize + 2 ≤ cs.length + v.freeCnt)
    (hmax : f.offset + src.length < 2 ^ 32) :
    Yields (fatFileWrite g src) (s, f)
      (fun r p ↦ r = (src.length, .ok ⟨⟩) ∧ ∃ v' cs', Served g dirs rest v cs p.1 v' cs' ∧
        p.2.Open g v' cs' ∧ (f.stream g v cs).Writes src (p.2.stream g v' cs') ∧
        ({ p.2.stream g v' cs' with pos := f.offset }).ahead src.length = src)
      fun _ _ ↦ False := by
  refine (fatFileWrite_spec hg h hf hwrite src).mono ?_ fun _ _ hE ↦ hE
  rintro ⟨n, res⟩ p ⟨hres, v', cs', hleft⟩
  dsimp only at hres hleft
  obtain ⟨hn, hwrites⟩ := hleft.of_room hroom hmax
  subst hn hres
  exact ⟨rfl, v', cs', hleft.served, hleft.isOpen, hwrites, hwrites.ahead⟩

theorem fatFileWrite_of_room_sample : ∃ s' f',
    fatFileWrite .small [0x4A, 0x6F, 0x65] (.sample, .sample 0) = .ok (3, .ok ⟨⟩) (s', f') ∧
      f'.offset = 3 := by
  have hroom : (0 + ([0x4A, 0x6F, 0x65] : List UInt8).length) / 512 + 2 ≤
      1 + Fat.sample.volume.freeCnt := by
    rw [sample_freeCnt]
    decide
  have hspec := fatFileWrite_of_room small_wellFormed sample_serving (sample_open 0) (by decide)
    hroom (by decide)
  cases hcall : fatFileWrite .small [0x4A, 0x6F, 0x65] (.sample, .sample 0) with
  | error e p => exact (hspec.error hcall).elim
  | ok r p =>
      obtain ⟨rfl, v', cs', -, -, hwrites, -⟩ := hspec.ok hcall
      exact ⟨p.1, p.2, rfl, hwrites.pos⟩

/-! ## Reading what has been written -/

/-- Bytes that are the same are read the same. -/
theorem File.ahead_congr (hsize : f'.size = f.size) (hoffset : f'.offset = f.offset)
    (hbytes : ∀ q < f.size, f'.byteAt g v' cs' q = f.byteAt g v cs q) (n : Nat) :
    (f'.stream g v' cs').ahead n = (f.stream g v cs).ahead n := by
  rw [File.ahead_stream, File.ahead_stream, hsize, hoffset]
  refine List.map_congr_left fun j hj ↦ hbytes _ ?_
  have hlt := List.mem_range.mp hj
  omega

/-- A seek to a place in front of the position does not fail. -/
theorem fatFileSeek_back (hg : g.WellFormed) (h : Serving g dirs rest s v cs) (hf : f.Open g v cs)
    (hq : q ≤ f.offset) :
    Yields (fatFileSeek g q .fromStart) (s, f)
      (fun _ p ↦ ∃ v' cs', Served g dirs rest v cs p.1 v' cs' ∧ p.2.Open g v' cs' ∧
        p.2.toHandle = f.toHandle ∧ p.2.offset = q ∧
        ∀ i < cs.length * g.clustSize, p.2.byteAt g v' cs' i = f.byteAt g v cs i)
      fun _ _ ↦ False := by
  have hlt := hf.offset_lt
  refine Yields.get_bind (Yields.ite (fun hout ↦ ?_) fun _ ↦ ?_)
  · dsimp only [File.target] at hout
    omega
  · refine (seekTo_spec hg h hf.ready (show q < 2 ^ 32 by omega)).mono ?_ ?_
    · rintro _ p ⟨v', cs', hserved, hopen, hhandle, hoffset, hbytes, -⟩
      exact ⟨v', cs', hserved, hopen, hhandle, hoffset, hbytes⟩
    · -- no link is followed behind the cluster of the position
      rintro e p ⟨-, -, -, -, -, -, -, -, -, -, i, hi, -⟩
      have hmono : q / g.clustSize ≤ f.offset / g.clustSize := Nat.div_le_div_right hq
      rw [Nat.sub_eq_zero_of_le hmono] at hi
      exact absurd hi (Nat.not_lt_zero i)

/-- A write, a seek back to where it has begun, and a read. -/
theorem write_seek_read (hg : g.WellFormed) (h : Serving g dirs rest s v cs) (hf : f.Open g v cs)
    (hwrite : f.flags &&& FAT_WRITE ≠ 0) (hread : f.flags &&& FAT_READ ≠ 0)
    (hroom : (f.offset + src.length) / g.clustSize + 2 ≤ cs.length + v.freeCnt)
    (hmax : f.offset + src.length < 2 ^ 32) :
    Yields (fatFileWrite g src >>= fun _ ↦ fatFileSeek g f.offset .fromStart >>= fun _ ↦
        fatFileRead g src.length) (s, f)
      (fun r _ ↦ r = (src, .ok ⟨⟩)) fun _ _ ↦ False := by
  refine Yields.bind (fatFileWrite_spec hg h hf hwrite src) ?_
  rintro ⟨n, res⟩ ⟨s₁, f₁⟩ ⟨-, v₁, cs₁, hleft⟩
  obtain ⟨rfl, hwrites⟩ := hleft.of_room hroom hmax
  have hpos : f₁.offset = f.offset + src.length := hwrites.pos
  refine Yields.bind (fatFileSeek_back hg hleft.served.toServing hleft.isOpen (by omega)) ?_
  rintro _ ⟨s₂, f₂⟩ ⟨v₂, cs₂, hserved, hopen, hhandle, hoffset, hbytes⟩
  have hwritten : f₁.flags = f.flags := (congrArg Handle.flags hleft.handle :)
  have hflags : f₂.flags = f.flags := (congrArg Handle.flags hhandle).trans hwritten
  have hsize : f₂.size = f₁.size := congrArg Handle.size hhandle
  refine (fatFileRead_spec hg hserved.toServing hopen (by rwa [hflags]) src.length).mono ?_
    fun _ _ hE ↦ hE
  rintro ⟨bytes, res'⟩ p ⟨hdelivered, v₃, cs₃, hread', -, -, -, hend⟩
  dsimp only at hdelivered hoffset hend
  have hahead := File.ahead_congr (f := { f₁ with offset := f.offset }) hsize hoffset
    (fun i hi ↦ hbytes i (Nat.lt_of_lt_of_le hi hleft.isOpen.size_le)) src.length
  obtain rfl : bytes = src := hdelivered.trans (hahead.trans hwrites.ahead)
  obtain ⟨rfl, -⟩ | ⟨-, hlen, hfull, hfree⟩ := hend
  · rfl
  · -- the file does not end where its clusters do, or there is a cluster behind them
    have htotal := hread'.free.trans (hserved.free.trans hleft.served.free)
    have hleast := Geometry.two_le_free hroom htotal (by omega)
    omega

theorem write_seek_read_sample : ∃ r p,
    (fatFileWrite .small [0x4A, 0x6F, 0x65] >>= fun _ ↦ fatFileSeek .small 0 .fromStart >>= fun _ ↦
      fatFileRead .small 3) (.sample, .sample 0) = .ok r p ∧ r = ([0x4A, 0x6F, 0x65], .ok ⟨⟩) := by
  have hroom : (0 + ([0x4A, 0x6F, 0x65] : List UInt8).length) / 512 + 2 ≤
      1 + Fat.sample.volume.freeCnt := by
    rw [sample_freeCnt]
    decide
  have hspec := write_seek_read small_wellFormed sample_serving (sample_open 0) (by decide)
    (by decide) hroom (by decide)
  cases hcall : (fatFileWrite .small [0x4A, 0x6F, 0x65] >>= fun _ ↦
      fatFileSeek .small 0 .fromStart >>= fun _ ↦ fatFileRead .small 3) (.sample, .sample 0) with
  | error e p => exact (hspec.error hcall).elim
  | ok r p => exact ⟨r, p, rfl, hspec.ok hcall⟩

end

end DemosOS.Fat32
