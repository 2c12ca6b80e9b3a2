import DemosOS.Fat.Sync
import DemosOS.Lib.Traces

/-!
# Open files are independent streams

What the functions on files are for: every open file is a sequence of bytes with a position in it, and
what is done with one file is not seen in any other.  This is proved for any number of files that are
open at once, and any order of calls, by a forward simulation: the files, which share the card, the
allocation table and the sector in memory, are simulated by as many streams that share nothing.

A write takes part if it has moved the position behind all its bytes, and the other calls if they have
returned `0`.
-/

namespace DemosOS.Fat32

open Lib

/-! ## What is seen of a call -/

/-- A call that has succeeded. -/
inductive FileEvent
  | seek (pos : Nat)
  | read (len : Nat) (bytes : List UInt8)
  | write (src : List UInt8)
  | sync

/-- What the call does to a stream. -/
inductive StreamStep : FileEvent → Stream UInt8 → Stream UInt8 → Prop
  | seek (st : Stream UInt8) (pos : Nat) : StreamStep (.seek pos) st { st with pos := pos }
  | read (st : Stream UInt8) (len : Nat) : StreamStep (.read len (st.ahead len)) st (st.advance len)
  | write {st st' : Stream UInt8} {src : List UInt8} (h : st.Writes src st') :
      StreamStep (.write src) st st'
  | sync (st : Stream UInt8) : StreamStep .sync st st

section

variable {ι : Type} [DecidableEq ι]

/-- A call for one of the open files. -/
inductive FileStep (g : Geometry) : ι × FileEvent → Fat × (ι → File) → Fat × (ι → File) → Prop
  | seek {s s' : Fat} {files : ι → File} {i : ι} {f' : File} {offset : Int} {whence : Seek}
      (h : fatFileSeek g offset whence (s, files i) = .ok ⟨⟩ (s', f')) :
      FileStep g (i, .seek ((files i).target offset whence).toNat) (s, files)
        (s', Function.update files i f')
  | read {s s' : Fat} {files : ι → File} {i : ι} {f' : File} {len : Nat} {bytes : List UInt8}
      (h : fatFileRead g len (s, files i) = .ok (bytes, .ok ⟨⟩) (s', f')) :
      FileStep g (i, .read len bytes) (s, files) (s', Function.update files i f')
  | write {s s' : Fat} {files : ι → File} {i : ι} {f' : File} {src : List UInt8} {n : Nat}
      (h : fatFileWrite g src (s, files i) = .ok (n, .ok ⟨⟩) (s', f'))
      (hoffset : f'.offset = (files i).offset + src.length) :
      FileStep g (i, .write src) (s, files) (s', Function.update files i f')
  | sync {s s' : Fat} {files : ι → File} {i : ι} {f' : File} {ts : Timestamp}
      (h : fatFileSync g ts (s, files i) = .ok ⟨⟩ (s', f')) :
      FileStep g (i, .sync) (s, files) (s', Function.update files i f')

/-- Files that are open on a consistent volume, each with a chain and an entry of its own. -/
structure Session (g : Geometry) (dirs : List (List Nat)) (s : Fat) (files : ι → File) (v : Volume)
    (chains : List (List Nat)) (cs : ι → List Nat) : Prop where
  shows : s.Shows v
  consistent : v.Consistent g chains
  sound : ¬ v.Faulty
  resides : s.Resides (g.Kept dirs)
  dirs_sub : dirs ⊆ chains
  mem : ∀ i, cs i ∈ chains
  notDir : ∀ i, cs i ∉ dirs
  inj : Function.Injective cs
  isOpen : ∀ i, (files i).Open g v (cs i)
  entry : ∀ i, (files i).Entry g dirs v
  entries : ∀ i j, i ≠ j →
    (files i).dirSect ≠ (files j).dirSect ∨ (files i).dirIdx ≠ (files j).dirIdx

variable {g : Geometry} {dirs rest chains : List (List Nat)} {s s' : Fat} {files : ι → File}
  {v v' : Volume} {cs : ι → List Nat} {ds ds' : List Nat} {f f' : File} {i : ι}

/-! ## One file among the others -/

omit [DecidableEq ι] in
theorem Session.serving (h : Session g dirs s files v chains cs) (i : ι) :
    Serving g dirs (chains.erase (cs i)) s v (cs i) where
  shows := h.shows
  consistent := h.consistent.perm (List.perm_cons_erase (h.mem i))
  sound := h.sound
  resides := h.resides
  dirs_sub d hd := by
    refine (List.mem_erase_of_ne ?_).mpr (h.dirs_sub hd)
    rintro rfl
    exact h.notDir i hd

/-- The file is not seen by a change beside its chain. -/
theorem File.Open.beside (hg : g.WellFormed) (hf : f.Open g v ds)
    (hds : ∀ c ∈ ds, 2 ≤ c ∧ c < g.clustCnt)
    (h : ∀ n, ∀ c ∈ ds, g.InClust n c → v'.sectors n = v.sectors n) :
    f.Open g v' ds ∧ f.stream g v' ds = f.stream g v ds := by
  obtain ⟨c, hc, hin⟩ := hf.sect_inClust
  have hne : f.sect ≠ 0xffffffff := (hin.lt hg (hds c hc).1 (hds c hc).2).ne
  have hview : ∀ n, ∀ c ∈ ds, g.InClust n c → (f.cache v').view n = (f.cache v).view n := by
    intro n c hc hin
    by_cases hsect : f.sect = n
    · subst hsect
      rw [WriteBack.view_self (File.cache_key hne), WriteBack.view_self (File.cache_key hne)]
      rfl
    · rw [File.view_of_ne hsect, File.view_of_ne hsect]
      exact h n c hc hin
  constructor
  · refine ⟨hf.toOn, hf.sect, fun {k} hkey hclean ↦ ?_, hf.coherent.loaded⟩
    obtain rfl := Option.some.inj ((File.cache_key hne).symm.trans hkey)
    exact (hf.coherent.clean (File.cache_key hne) hclean).trans (h _ c hc hin).symm
  · unfold File.stream
    congr 1
    refine List.map_congr_left fun q hq ↦ ?_
    have hlt : q / 512 / 2 ^ g.clustShift < ds.length := by
      rw [Geometry.div_clustSize]
      exact (Nat.div_lt_iff_lt_mul g.clustSize_pos).mpr
        ((List.mem_range.mp hq).trans_le hf.size_le)
    rw [File.byteAt, File.byteAt, hview _ _ (List.getElem_mem hlt)
      (Geometry.inClust_fileSect (List.getElem?_eq_getElem hlt))]

/-- What a call for file `i` has to leave, so that the session goes on. -/
structure Session.Left (g : Geometry) (dirs : List (List Nat)) (files : ι → File) (v : Volume)
    (chains : List (List Nat)) (cs : ι → List Nat) (i : ι) (s' : Fat) (f' : File) (v' : Volume)
    (ds' : List Nat) : Prop where
  serving : Serving g dirs (chains.erase (cs i)) s' v' ds'
  frame : ∀ n, g.dataSect ≤ n → ¬ g.InDirs dirs n → (∀ c ∈ ds', ¬ g.InClust n c) →
    v'.sectors n = v.sectors n
  isOpen : f'.Open g v' ds'
  entry : f'.Entry g dirs v'
  place : f'.dirSect = (files i).dirSect ∧ f'.dirIdx = (files i).dirIdx
  entries : ∀ j, j ≠ i → (files j).Entry g dirs v → (files j).Entry g dirs v'

omit [DecidableEq ι] in
/-- The other files are as before. -/
theorem Session.Left.others (hg : g.WellFormed) (h : Session g dirs s files v chains cs)
    (hleft : Session.Left g dirs files v chains cs i s' f' v' ds') {j : ι} (hj : j ≠ i) :
    cs j ∈ chains.erase (cs i) ∧ (files j).Open g v' (cs j) ∧
      (files j).stream g v' (cs j) = (files j).stream g v (cs j) := by
  have hmem : cs j ∈ chains.erase (cs i) :=
    (List.mem_erase_of_ne fun heq ↦ hj (h.inj heq)).mpr (h.mem j)
  have hrange : ∀ c ∈ cs j, 2 ≤ c ∧ c < g.clustCnt := fun c hc ↦ h.consistent.range (h.mem j) hc
  refine ⟨hmem, (h.isOpen j).beside hg hrange fun n c hc hin ↦ ?_⟩
  refine hleft.frame n hin.data_le ?_ fun d hd hin' ↦ ?_
  · rintro ⟨d, hd, c', hc', hin'⟩
    obtain rfl := hin.unique hin' (hrange c hc).1 (h.consistent.range (h.dirs_sub hd) hc').1
    -- a cluster of a directory is not one of a file
    have hne : d ≠ cs j := by
      rintro rfl
      exact h.notDir j hd
    have hperm := h.consistent.perm (List.perm_cons_erase (h.mem j))
    exact hperm.chains.disjoint_head ((List.mem_erase_of_ne hne).mpr (h.dirs_sub hd)) hc hc'
  · obtain rfl := hin.unique hin' (hrange c hc).1 (hleft.serving.range hd).1
    exact hleft.serving.consistent.chains.disjoint_head hmem hd hc

theorem Session.Left.session (hg : g.WellFormed) (h : Session g dirs s files v chains cs)
    (hleft : Session.Left g dirs files v chains cs i s' f' v' ds') :
    Session g dirs s' (Function.update files i f') v' (ds' :: chains.erase (cs i))
      (Function.update cs i ds') := by
  have hself : ∀ ds ∈ chains.erase (cs i), ds' ≠ ds := by
    rintro ds hds rfl
    obtain ⟨c, hc⟩ := List.exists_mem_of_ne_nil _ hleft.serving.chain.ne_nil
    exact hleft.serving.consistent.chains.disjoint_head hds hc hc
  refine ⟨hleft.serving.shows, hleft.serving.consistent, hleft.serving.sound,
    hleft.serving.resides, fun d hd ↦ List.mem_cons_of_mem _ (hleft.serving.dirs_sub hd),
    fun j ↦ ?_, fun j hmem ↦ ?_, fun j k heq ↦ ?_, fun j ↦ ?_, fun j ↦ ?_, fun j k hjk ↦ ?_⟩
  · by_cases hj : j = i
    · subst hj
      rw [Function.update_self]
      exact List.mem_cons_self
    · rw [Function.update_of_ne hj]
      exact List.mem_cons_of_mem _ (hleft.others hg h hj).1
  · by_cases hj : j = i
    · subst hj
      rw [Function.update_self] at hmem
      exact hself _ (hleft.serving.dirs_sub hmem) rfl
    · rw [Function.update_of_ne hj] at hmem
      exact h.notDir j hmem
  · by_cases hj : j = i
    · by_cases hk : k = i
      · rw [hj, hk]
      · subst hj
        rw [Function.update_self, Function.update_of_ne hk] at heq
        exact absurd heq (hself _ (hleft.others hg h hk).1)
    · by_cases hk : k = i
      · subst hk
        rw [Function.update_self, Function.update_of_ne hj] at heq
        exact absurd heq.symm (hself _ (hleft.others hg h hj).1)
      · rw [Function.update_of_ne hj, Function.update_of_ne hk] at heq
        exact h.inj heq
  · by_cases hj : j = i
    · subst hj
      rw [Function.update_self, Function.update_self]
      exact hleft.isOpen
    · rw [Function.update_of_ne hj, Function.update_of_ne hj]
      exact (hleft.others hg h hj).2.1
  · by_cases hj : j = i
    · subst hj
      rw [Function.update_self]
      exact hleft.entry
    · rw [Function.update_of_ne hj]
      exact hleft.entries j hj (h.entry j)
  · have hplace : ∀ l, (Function.update files i f' l).dirSect = (files l).dirSect ∧
        (Function.update files i f' l).dirIdx = (files l).dirIdx := by
      intro l
      by_cases hl : l = i
      · subst hl
        rw [Function.update_self]
        exact hleft.place
      · rw [Function.update_of_ne hl]
        exact ⟨rfl, rfl⟩
    rw [(hplace j).1, (hplace j).2, (hplace k).1, (hplace k).2]
    exact h.entries j k hjk

/-! ## One call -/

omit [DecidableEq ι] in
/-- A call that has left the directories alone. -/
theorem Session.left_of_served (h : Session g dirs s files v chains cs)
    (hserved : Served g dirs (chains.erase (cs i)) v (cs i) s' v' ds') (hopen : f'.Open g v' ds')
    (hplace : f'.dirSect = (files i).dirSect ∧ f'.dirIdx = (files i).dirIdx)
    (hsclust : f'.sclust = (files i).sclust)
    (hsize : f'.modified = false → (files i).modified = false ∧ f'.size = (files i).size) :
    Session.Left g dirs files v chains cs i s' f' v' ds' := by
  have hdir : ∀ j, v'.sectors (files j).dirSect = v.sectors (files j).dirSect := fun j ↦
    hserved.frame _ (h.entry j).dir.data_le fun c hc hin ↦
      hserved.toServing.dir_ne (h.entry j).dir hc hin rfl
  refine ⟨hserved.toServing, fun n hn _ hcs ↦ hserved.frame n hn hcs, hopen, ?_, hplace,
    fun j _ hentry ↦ ?_⟩
  · have hentry := h.entry i
    refine ⟨?_, ?_, ?_, ?_, fun hmodified ↦ ?_⟩
    · rw [hplace.1]
      exact hentry.dir
    · rw [hplace.2]
      exact hentry.aligned
    · rw [hplace.2]
      exact hentry.inSector
    · rw [hplace.1, hplace.2, hdir, hsclust]
      exact hentry.clust
    · obtain ⟨hclean, hsame⟩ := hsize hmodified
      rw [hplace.1, hplace.2, hdir, hsame]
      exact hentry.size hclean
  · refine { hentry with clust := ?_, size := fun hclean ↦ ?_ }
    · rw [hdir]
      exact hentry.clust
    · rw [hdir]
      exact hentry.size hclean

omit [DecidableEq ι] in
/-- `fat_file_sync` leaves the entries of the other files alone. -/
theorem Session.left_of_sync {ts : Timestamp} (h : Session g dirs s files v chains cs)
    (hsync : SyncLeft g dirs (chains.erase (cs i)) v (cs i) (files i) ts (s', f') v') :
    Session.Left g dirs files v chains cs i s' f' v' (cs i) := by
  obtain ⟨c, hc, hin⟩ := (h.isOpen i).sect_inClust
  have hentry := h.entry i
  have hbeside : ∀ n, g.dataSect ≤ n → n ≠ (files i).dirSect → n ≠ (files i).sect →
      v'.sectors n = v.sectors n := fun n hn hdir hsect ↦
    (hsync.data n hn hdir).trans (File.view_of_ne (Ne.symm hsect))
  refine ⟨hsync.serving, fun n hn hdir hcs ↦ hbeside n hn ?_ ?_, hsync.isOpen (h.isOpen i) hentry,
    hsync.entryOf (h.isOpen i) hentry, ?_, fun j hj hother ↦ ?_⟩
  · rintro rfl
    exact hdir hentry.dir
  · rintro rfl
    exact hcs c hc hin
  · rw [show f' = { files i with accessed := false, modified := false } from hsync.file]
    exact ⟨rfl, rfl⟩
  · have hrecord : (v'.sectors (files j).dirSect).record (files j).dirIdx =
        (v.sectors (files j).dirSect).record (files j).dirIdx := by
      by_cases hsame : (files j).dirSect = (files i).dirSect
      · rw [hsame]
        rcases hsync.entry with ⟨hclean, -⟩ | hstamp
        · rw [hclean]
        · -- the entries are apart
          have hidx := (h.entries j i hj).resolve_left fun hne ↦ hne hsame
          have haligned := hentry.aligned
          have haligned' := hother.aligned
          rw [hstamp]
          exact Sector.record_editRecord_of_disjoint (by omega)
      · have hne : (files j).dirSect ≠ (files i).sect := fun heq ↦
          hsync.serving.dir_ne hother.dir hc (heq ▸ hin) rfl
        rw [hbeside _ hother.dir.data_le hsame hne]
    refine { hother with clust := ?_, size := fun hclean ↦ ?_ }
    · rw [hrecord]
      exact hother.clust
    · rw [hrecord]
      exact hother.size hclean

/-- The streams of a session. -/
def Session.streams (g : Geometry) (files : ι → File) (v : Volume) (cs : ι → List Nat) :
    ι → Stream UInt8 := fun i ↦ (files i).stream g v (cs i)

/-- A call for one file is a step of its stream. -/
theorem Session.Left.simulate (hg : g.WellFormed) (h : Session g dirs s files v chains cs)
    (hleft : Session.Left g dirs files v chains cs i s' f' v' ds') {e : FileEvent}
    (hstep : StreamStep e ((files i).stream g v (cs i)) (f'.stream g v' ds')) :
    ∃ chains' cs', Session g dirs s' (Function.update files i f') v' chains' cs' ∧
      Each StreamStep (i, e) (streams g files v cs) (streams g (Function.update files i f') v' cs') := by
  refine ⟨_, _, hleft.session hg h, f'.stream g v' ds', hstep, ?_⟩
  funext j
  unfold streams
  by_cases hj : j = i
  · subst hj
    rw [Function.update_self, Function.update_self, Function.update_self]
  · rw [Function.update_of_ne hj, Function.update_of_ne hj, Function.update_of_ne hj]
    exact (hleft.others hg h hj).2.2

theorem fatFileRead_denied {g : Geometry} {len : Nat} {p : Fat × File}
    (h : p.2.flags &&& FAT_READ = 0) :
    fatFileRead g len p = .ok ([], .error (.code FAT_ERR_DENIED)) p := by
  change (if p.2.flags &&& FAT_READ = 0 then _ else _ : FileM _) p = _
  rw [if_pos h]
  rfl

theorem fatFileWrite_denied {g : Geometry} {src : List UInt8} {p : Fat × File}
    (h : p.2.flags &&& FAT_WRITE = 0) :
    fatFileWrite g src p = .ok (0, .error (.code FAT_ERR_DENIED)) p := by
  change (if p.2.flags &&& FAT_WRITE = 0 then _ else _ : FileM _) p = _
  rw [if_pos h]
  rfl

/-- The bytes of a file whose size is the same. -/
theorem File.stream_congr (hf : f.Open g v ds) (hsize : f'.size = f.size)
    (hbytes : ∀ q < ds.length * g.clustSize, f'.byteAt g v' ds' q = f.byteAt g v ds q) :
    f'.stream g v' ds' = { f.stream g v ds with pos := f'.offset } := by
  unfold File.stream
  rw [hsize]
  congr 1
  exact List.map_congr_left fun q hq ↦
    hbytes q ((List.mem_range.mp hq).trans_le hf.size_le)

/-- The simulation. -/
theorem FileStep.simulate (hg : g.WellFormed) {e : ι × FileEvent} {files' : ι → File}
    (hstep : FileStep g e (s, files) (s', files')) (h : Session g dirs s files v chains cs) :
    ∃ v' chains' cs', Session g dirs s' files' v' chains' cs' ∧
      Each StreamStep e (Session.streams g files v cs) (Session.streams g files' v' cs') := by
  cases hstep with
  | @seek _ _ _ i f' offset whence hcall =>
      have hspec : Yields (fatFileSeek g offset whence) (s, files i)
          (fun _ p ↦ ∃ v' ds', Served g dirs (chains.erase (cs i)) v (cs i) p.1 v' ds' ∧
            p.2.Open g v' ds' ∧ p.2.toHandle = (files i).toHandle ∧
            p.2.offset = ((files i).target offset whence).toNat ∧
            ∀ q < (cs i).length * g.clustSize,
              p.2.byteAt g v' ds' q = (files i).byteAt g v (cs i) q) fun _ _ ↦ True := by
        refine Yields.get_bind (Yields.ite (fun _ ↦ Yields.throw trivial) fun hin ↦ ?_)
        dsimp only at hin ⊢
        refine (seekTo_spec hg (h.serving i) (h.isOpen i).ready (by omega)).mono ?_
          fun _ _ _ ↦ trivial
        rintro _ p ⟨v', ds', hserved, hopen, hhandle, hoffset, hbytes, -⟩
        exact ⟨v', ds', hserved, hopen, hhandle, hoffset, hbytes⟩
      obtain ⟨v', ds', hserved, hopen, hhandle, hoffset, hbytes⟩ := hspec.ok hcall
      dsimp only at hopen hhandle hoffset hbytes
      have hleft := h.left_of_served hserved hopen
        ⟨congrArg Handle.dirSect hhandle, congrArg Handle.dirIdx hhandle⟩
        (congrArg Handle.sclust hhandle) fun hclean ↦
          ⟨(congrArg Handle.modified hhandle).symm.trans hclean, congrArg Handle.size hhandle⟩
      refine ⟨v', hleft.simulate hg h ?_⟩
      rw [File.stream_congr (h.isOpen i) (congrArg Handle.size hhandle) hbytes, hoffset]
      exact .seek _ _
  | @read _ _ _ i f' len bytes hcall =>
      have hread : (files i).flags &&& FAT_READ ≠ 0 := by
        intro hdenied
        have heq := (fatFileRead_denied hdenied).symm.trans hcall
        injection heq with hresult
        exact nomatch (Prod.mk.inj hresult).2
      obtain ⟨hbytes, v', ds', hserved, hopen, hhandle, hsame, ⟨-, hoffset⟩ | ⟨hfull, -⟩⟩ :=
        (fatFileRead_spec hg (h.serving i) (h.isOpen i) hread len).ok hcall
      · dsimp only at hbytes hopen hhandle hsame hoffset
        have hleft := h.left_of_served hserved hopen
          ⟨(congrArg Handle.dirSect hhandle :), (congrArg Handle.dirIdx hhandle :)⟩
          (congrArg Handle.sclust hhandle :) fun hclean ↦
            ⟨(congrArg Handle.modified hhandle).symm.trans hclean,
              (congrArg Handle.size hhandle :)⟩
        refine ⟨v', hleft.simulate hg h ?_⟩
        have hsize : f'.size = (files i).size := (congrArg Handle.size hhandle :)
        rw [File.stream_congr (f := files i) (h.isOpen i) hsize hsame, hoffset, hbytes]
        exact .read _ _
      · exact nomatch hfull
  | @write _ _ _ i f' src n hcall hoffset =>
      have hwrite : (files i).flags &&& FAT_WRITE ≠ 0 := by
        intro hdenied
        have heq := (fatFileWrite_denied hdenied).symm.trans hcall
        injection heq with hresult
        exact nomatch (Prod.mk.inj hresult).2
      obtain ⟨-, v', ds', hleft⟩ :=
        (fatFileWrite_spec hg (h.serving i) (h.isOpen i) hwrite src).ok hcall
      have hhandle := hleft.handle
      have hcounted := hleft.counted
      have hle := hleft.le
      dsimp only at hhandle hcounted hle
      have hmodified : f'.modified = true := (congrArg Handle.modified hhandle :)
      have hleft' := h.left_of_served hleft.served hleft.isOpen
        ⟨(congrArg Handle.dirSect hhandle :), (congrArg Handle.dirIdx hhandle :)⟩
        (congrArg Handle.sclust hhandle :) fun hclean ↦ nomatch hmodified.symm.trans hclean
      refine ⟨v', hleft'.simulate hg h (.write ?_)⟩
      rcases hcounted with ⟨hr, hoff⟩ | ⟨hlost, -⟩
      · exact hleft.stream hr hoff
      · omega
  | @sync _ _ _ i f' ts hcall =>
      obtain ⟨v', hsync⟩ := (fatFileSync_spec hg (h.serving i) (h.isOpen i) (h.entry i)).ok hcall
      have hfile : f' = { files i with accessed := false, modified := false } := hsync.file
      refine ⟨v', (h.left_of_sync hsync).simulate hg h ?_⟩
      have hsize : f'.size = (files i).size := by rw [hfile]
      have hpos : f'.offset = (files i).offset := by rw [hfile]
      rw [File.stream_congr (f := files i) (h.isOpen i) hsize
        fun q hq ↦ (hsync.byteAt hg (h.entry i) hq).1, hpos]
      exact .sync _

end

theorem sample_session : Session .small [[2]] .sample File.sample Fat.sample.volume
    [[4], [3], [2]] (fun i ↦ [3 + i.val]) where
  shows := sample_serving.shows
  consistent := sample_consistent
  sound := sample_serving.sound
  resides := sample_serving.resides
  dirs_sub := by simp
  mem i := by
    match i with
    | 0 => decide
    | 1 => decide
  notDir i := by
    match i with
    | 0 => decide
    | 1 => decide
  inj i j h := by
    have heq := List.head_eq_of_cons_eq h
    exact Fin.ext (by omega)
  isOpen := sample_open
  entry := sample_entry
  entries i j h := by
    right
    change 32 * i.val ≠ 32 * j.val
    exact fun heq ↦ h (Fin.ext (by omega))

end DemosOS.Fat32
