import DemosOS.Fat.Transfer

/-!
# Closing and opening a file

After `fat_file_sync` the card holds the bytes of the file and, in the entry of the file, its size.
So the file can be opened again, also after the card has been mounted again, and it shows the same.
-/

namespace DemosOS.Fat32

open Lib

/-- The sector of a directory. -/
def Geometry.InDirs (g : Geometry) (dirs : List (List Nat)) (n : Nat) : Prop :=
  ∃ d ∈ dirs, ∃ c ∈ d, g.InClust n c

/-- The entry of a file: where it lies, and what it says. -/
structure File.Entry (g : Geometry) (dirs : List (List Nat)) (v : Volume) (f : File) : Prop where
  dir : g.InDirs dirs f.dirSect
  aligned : 32 ∣ f.dirIdx
  inSector : f.dirIdx < 512
  clust : ((v.sectors f.dirSect).record f.dirIdx).cluster = f.sclust
  size : f.modified = false → ((v.sectors f.dirSect).record f.dirIdx).size = f.size

section

variable {g : Geometry} {dirs rest : List (List Nat)} {s : Fat} {v v' : Volume} {cs : List Nat}
  {f : File} {size : Nat} {accessed modified : Bool} {ts : Timestamp} {r : Record}

/-! ## The entry that is stamped -/

/-- Every field that `fat_file_sync` does not write is the same. -/
theorem field_stampEntry {j k : Nat}
    (hout : j + k ≤ 11 ∨ (12 ≤ j ∧ j + k ≤ 18) ∨ (20 ≤ j ∧ j + k ≤ 22) ∨ (26 ≤ j ∧ j + k ≤ 28)) :
    (stampEntry size accessed modified ts r).field j k = r.field j k := by
  unfold stampEntry
  dsimp only
  have hacc : (if accessed = true then r.setField 18 2 (encodeTimestamp ts).1 else r).field j k =
      r.field j k := by
    split_ifs
    · exact Block.field_setField_of_disjoint (by omega)
    · rfl
  by_cases hmodified : modified = true
  · rw [if_pos hmodified, Block.field_setField_of_disjoint (by omega),
      Block.field_setField_of_disjoint (by omega), Block.field_setField_of_disjoint (by omega),
      Block.field_setField_of_disjoint (by omega)]
    exact hacc
  · rw [if_neg hmodified]
    exact hacc

/-- The size of a file that has been modified is stored. -/
theorem size_stampEntry (hsize : size < 2 ^ 32) :
    (stampEntry size accessed true ts r).size = size := by
  unfold stampEntry Record.size
  dsimp only
  rw [if_pos rfl, Block.field_setField_of_disjoint (by decide),
    Block.field_setField_of_disjoint (by decide), Block.field_setField (by decide)]
  exact Nat.mod_eq_of_lt hsize

theorem size_stampEntry_false : (stampEntry size accessed false ts r).size = r.size := by
  unfold stampEntry Record.size
  dsimp only
  rw [if_neg Bool.false_ne_true]
  split_ifs
  · exact Block.field_setField_of_disjoint (by decide)
  · rfl

theorem cluster_stampEntry : (stampEntry size accessed modified ts r).cluster = r.cluster := by
  rw [Record.cluster, field_stampEntry (by decide), field_stampEntry (by decide), Record.cluster]

/-! ## Other sectors -/

/-- What `sync_fs` does to a consistent volume. -/
theorem Volume.Consistent.synced {chains : List (List Nat)} (hg : g.WellFormed)
    (h : v.Consistent g chains) : (v.synced g).Consistent g chains := by
  by_cases hdirty : v.infoDirty = true
  · exact Volume.consistent_synced hg hdirty h.toUsable h.chains h.mirrored h.counted
  · rw [Volume.synced, if_neg hdirty]
    exact h

theorem Volume.synced_data (hg : g.WellFormed) (v : Volume) {n : Nat} (hn : g.dataSect ≤ n) :
    (v.synced g).sectors n = v.sectors n := by
  unfold Volume.synced
  by_cases hdirty : v.infoDirty = true
  · rw [if_pos hdirty]
    refine Function.update_of_ne ?_ _ _
    have hinfo := hg.info_lt_data
    omega
  · rw [if_neg hdirty]

theorem Volume.synced_fails (v : Volume) : (v.synced g).fails = v.fails := by
  unfold Volume.synced
  split_ifs
  · rfl
  · rfl

theorem Serving.dirs_range (h : Serving g dirs rest s v cs) :
    ∀ d ∈ dirs, ∀ c ∈ d, 2 ≤ c ∧ c < g.clustCnt := fun _ hd _ hc ↦
  h.consistent.range (List.mem_cons_of_mem _ (h.dirs_sub hd)) hc

/-- A sector of a directory is not one of the file. -/
theorem Serving.dir_ne (h : Serving g dirs rest s v cs) {n m c : Nat} (hn : g.InDirs dirs n)
    (hc : c ∈ cs) (hm : g.InClust m c) : m ≠ n := by
  rintro rfl
  obtain ⟨d, hd, c', hc', hin⟩ := hn
  obtain rfl := hm.unique hin (h.range hc).1 (h.dirs_range d hd c' hc').1
  exact h.consistent.chains.disjoint_head (h.dirs_sub hd) hc hc'

theorem Geometry.InDirs.data_le {n : Nat} (h : g.InDirs dirs n) : g.dataSect ≤ n := by
  obtain ⟨d, -, c, -, hin⟩ := h
  exact hin.data_le

theorem File.Open.sect_inClust (h : f.Open g v cs) : ∃ c ∈ cs, g.InClust f.sect c := by
  refine ⟨f.clust, List.mem_of_getElem? h.clust, ?_⟩
  rw [h.sect]
  refine Geometry.inClust_fileSect ?_
  rw [Geometry.div_clustSize]
  exact h.clust

/-! ## fat_file_sync -/

/-- What `fat_file_sync` leaves. -/
structure SyncLeft (g : Geometry) (dirs rest : List (List Nat)) (v : Volume) (cs : List Nat) (f : File)
    (ts : Timestamp) (p : Fat × File) (v' : Volume) : Prop where
  serving : Serving g dirs rest p.1 v' cs
  file : p.2 = { f with accessed := false, modified := false }
  /-- Nothing is left in memory only. -/
  onCard : p.1.bufDirty = false
  data : ∀ n, g.dataSect ≤ n → n ≠ f.dirSect → v'.sectors n = (f.cache v).view n
  entry : v'.sectors f.dirSect = v.sectors f.dirSect ∧ f.modified = false ∨
    v'.sectors f.dirSect =
      (v.sectors f.dirSect).editRecord f.dirIdx (stampEntry f.size f.accessed f.modified ts)

theorem fatFileSync_spec (hg : g.WellFormed) (h : Serving g dirs rest s v cs) (hf : f.Open g v cs)
    (hentry : f.Entry g dirs v) :
    Yields (fatFileSync g ts) (s, f) (fun _ p ↦ ∃ v', SyncLeft g dirs rest v cs f ts p v')
      fun _ _ ↦ False := by
  obtain ⟨c, hc, hin⟩ := hf.sect_inClust
  obtain ⟨hc2, hclt⟩ := h.range hc
  have hkey : (f.cache v).key = some f.sect := File.cache_key (hin.lt hg hc2 hclt).ne
  obtain ⟨hwrite, hshows⟩ := opsWrite_spec (b := f.buf) h.shows h.sound (h.sect_ne hc hin)
  have hdir : g.Kept dirs f.dirSect := Or.inr hentry.dir
  have hpos : f.dirSect ≠ 0 := by
    have hdata := hentry.dir.data_le
    have hinfo := hg.info_lt_data
    omega
  have hflushed : { v with sectors := Function.update v.sectors f.sect f.buf } = f.flushed v := by
    rw [File.flushed, WriteBack.view_of_key hkey]
    rfl
  rw [hflushed] at hshows
  have hserved := h.flushed hg (Or.inr ⟨c, hc, hin⟩) hshows rfl
  have hdirSect : (f.flushed v).sectors f.dirSect = v.sectors f.dirSect :=
    File.view_of_ne (h.dir_ne hentry.dir hc hin)
  refine Yields.get_bind (Yields.bind (Q := fun r p ↦ r = true ∧
    Serving g dirs rest p.1 (f.flushed v) cs ∧ p.2 = f)
    (Yields.onFirst (Yields.of_ok hwrite ⟨rfl, hserved.toServing, rfl⟩)) ?_)
  rintro _ ⟨s₁, f₁⟩ ⟨rfl, h₁, hsame⟩
  obtain rfl : f₁ = f := hsame
  -- the entry
  refine Yields.bind (Q := fun _ p ↦ ∃ v₂, Serving g dirs rest p.1 v₂ cs ∧ p.2 = f₁ ∧
    (∀ n, g.dataSect ≤ n → n ≠ f₁.dirSect → v₂.sectors n = (f₁.cache v).view n) ∧
    (v₂.sectors f₁.dirSect = v.sectors f₁.dirSect ∧ f₁.modified = false ∨
      v₂.sectors f₁.dirSect = (v.sectors f₁.dirSect).editRecord f₁.dirIdx
        (stampEntry f₁.size f₁.accessed f₁.modified ts))) (Yields.when (fun _ ↦ ?_) fun hnot ↦ ?_) ?_
  · refine Yields.bind (Q := fun _ p ↦ (p.1.Shows (f₁.flushed v) ∧ p.1.Loaded f₁.dirSect) ∧
      p.1.Resides (g.Kept dirs) ∧ p.2 = f₁) (Yields.onFirst (((updateBuf_keeps hdir).and h₁.resides
        (updateBuf_spec h₁.shows hpos)).mono (fun _ _ hq ↦ ⟨hq.1, hq.2, rfl⟩) fun _ _ hE ↦
          h₁.sound hE.1.2.1)) ?_
    rintro _ ⟨s₂, f₂⟩ ⟨⟨h₂, hload⟩, hs₂, hsame⟩
    obtain rfl : f₂ = f₁ := hsame
    refine Yields.onFirst ((editBuf_keeps.and hs₂ (editBuf_spec
      (E := fun _ _ ↦ False) h₂ hload)).mono ?_ fun _ _ hE ↦ hE.1)
    rintro _ s₃ ⟨⟨h₃, -⟩, hs₃⟩
    refine ⟨_, ⟨h₃, ?_, h₁.sound, hs₃, h₁.dirs_sub⟩, rfl, fun n _ hne ↦ ?_, Or.inr ?_⟩
    · refine h₁.consistent.congr hg rfl fun n hn ↦ Function.update_of_ne ?_ _ _
      have hdata := hentry.dir.data_le
      omega
    · exact Function.update_of_ne hne _ _
    · refine (Function.update_self ..).trans ?_
      rw [hdirSect]
  · rw [not_or, Bool.not_eq_true, Bool.not_eq_true] at hnot
    exact ⟨f₁.flushed v, h₁, rfl, fun _ _ _ ↦ rfl, Or.inl ⟨hdirSect, hnot.2⟩⟩
  · rintro _ ⟨s₂, f₂⟩ ⟨v₂, h₂, rfl, hdata₂, hentry₂⟩
    refine Yields.bind (Q := fun _ p ↦ (p.1.Shows (v₂.synced g) ∧ p.1.bufDirty = false) ∧
      p.1.Resides (g.Kept dirs) ∧ p.2 = f₂) (Yields.onFirst ?_) ?_
    · refine ((syncFs_keeps (Geometry.kept_of_lt hg.info_lt_data)).and h₂.resides
        (syncFs_spec h₂.shows hg.info.ne')).mono (fun _ _ hq ↦ ⟨hq.1, hq.2, rfl⟩) ?_
      rintro e s' ⟨hE | hE, -⟩
      · exact h₂.sound hE.2.1
      · exact h₂.sound hE.2.1
    · rintro _ ⟨s₃, f₃⟩ ⟨⟨h₃, hclean⟩, hs₃, rfl⟩
      refine Yields.modify ⟨v₂.synced g, ⟨h₃, h₂.consistent.synced hg, ?_, hs₃, h₂.dirs_sub⟩, rfl,
        hclean, fun n hn hne ↦ ?_, ?_⟩
      · rw [Volume.Faulty, Volume.synced_fails]
        exact h₂.sound
      · rw [Volume.synced_data hg v₂ hn]
        exact hdata₂ n hn hne
      · rw [Volume.synced_data hg v₂ hentry.dir.data_le]
        exact hentry₂

namespace SyncLeft

variable {p : Fat × File}

/-- The sectors of the file are not that of its entry. -/
theorem view (h : SyncLeft g dirs rest v cs f ts p v') (hentry : f.Entry g dirs v) {n c : Nat} (hc : c ∈ cs) (hn : g.InClust n c) :
    v'.sectors n = (f.cache v).view n :=
  h.data n hn.data_le (h.serving.dir_ne hentry.dir hc hn)

theorem isOpen (h : SyncLeft g dirs rest v cs f ts p v') (hf : f.Open g v cs)
    (hentry : f.Entry g dirs v) : p.2.Open g v' cs := by
  obtain ⟨c, hc, hin⟩ := hf.sect_inClust
  rw [h.file]
  refine ⟨⟨hf.head, hf.clust, hf.size_le, hf.size_lt, hf.offset_lt⟩, hf.sect, fun {k} hkey _ ↦ ?_,
    hf.coherent.loaded⟩
  have hk : f.sect = k := by
    have hne : f.sect ≠ 0xffffffff := fun hfresh ↦
      nomatch hkey.symm.trans (File.cache_key_fresh (v := v') hfresh)
    exact Option.some.inj ((File.cache_key hne).symm.trans hkey)
  subst hk
  exact (WriteBack.view_self (c := f.cache v) hkey).symm.trans (h.view hentry hc hin).symm

/-- The file and the card show what the file has shown before. -/
theorem byteAt (hg : g.WellFormed) (h : SyncLeft g dirs rest v cs f ts p v')
    (hentry : f.Entry g dirs v) {q : Nat} (hq : q < cs.length * g.clustSize) :
    p.2.byteAt g v' cs q = f.byteAt g v cs q ∧
      (v'.sectors (g.fileSect cs (q / 512))).byte (q % 512) = f.byteAt g v cs q := by
  have hlt : q / 512 / 2 ^ g.clustShift < cs.length := by
    rw [Geometry.div_clustSize]
    exact (Nat.div_lt_iff_lt_mul g.clustSize_pos).mpr hq
  have hin := Geometry.inClust_fileSect (List.getElem?_eq_getElem hlt)
  have hview := h.view hentry (List.getElem_mem hlt) hin
  constructor
  · rw [h.file, File.byteAt, File.byteAt]
    congr 1
    by_cases hsect : f.sect = g.fileSect cs (q / 512)
    · obtain ⟨hc2, hclt⟩ := h.serving.range (List.getElem_mem hlt)
      have hne : f.sect ≠ 0xffffffff := by
        rw [hsect]
        exact (hin.lt hg hc2 hclt).ne
      rw [← hsect, WriteBack.view_self (File.cache_key hne), WriteBack.view_self (c := File.cache
        { f with accessed := false, modified := false } v') (File.cache_key (f := f) hne)]
      rfl
    · rw [← hview]
      exact File.view_of_ne (f := { f with accessed := false, modified := false }) hsect
  · rw [hview]
    rfl

/-- The entry says what the file is. -/
theorem entryOf (h : SyncLeft g dirs rest v cs f ts p v') (hf : f.Open g v cs)
    (hentry : f.Entry g dirs v) : p.2.Entry g dirs v' := by
  have hidx : f.dirIdx + 32 ≤ 512 := by
    have haligned := hentry.aligned
    have hlt := hentry.inSector
    omega
  have hfile := h.file
  refine ⟨?_, ?_, ?_, ?_, fun _ ↦ ?_⟩
  all_goals rw [hfile]
  · exact hentry.dir
  · exact hentry.aligned
  · exact hentry.inSector
  · change ((v'.sectors f.dirSect).record f.dirIdx).cluster = f.sclust
    rcases h.entry with ⟨hsame, -⟩ | hstamp
    · rw [hsame]
      exact hentry.clust
    · rw [hstamp, Sector.record_editRecord hidx, cluster_stampEntry]
      exact hentry.clust
  · change ((v'.sectors f.dirSect).record f.dirIdx).size = f.size
    rcases h.entry with ⟨hsame, hmodified⟩ | hstamp
    · rw [hsame]
      exact hentry.size hmodified
    · rw [hstamp, Sector.record_editRecord hidx]
      cases hmodified : f.modified with
      | true => exact size_stampEntry hf.size_lt
      | false =>
          rw [size_stampEntry_false]
          exact hentry.size hmodified

end SyncLeft

/-! ## Opening it again -/

/-- The end of `fat_file_open`, for an entry that is in memory and says what the chain is. -/
theorem openEntry_spec {dirSect dirIdx flags : Nat} {f₀ : File} (hg : g.WellFormed)
    (h : Serving g dirs rest s v cs) (hload : s.Loaded dirSect)
    (hclust : cs.head? = some ((v.sectors dirSect).record dirIdx).cluster)
    (hsize : ((v.sectors dirSect).record dirIdx).size ≤ cs.length * g.clustSize)
    (hflags : flags &&& FAT_TRUNC = 0 ∧ flags &&& FAT_APPEND = 0) :
    Yields (openEntry g dirSect dirIdx flags) (s, f₀)
      (fun _ p ↦ ∃ v', Served g dirs rest v cs p.1 v' cs ∧ p.2.Open g v' cs ∧ p.2.offset = 0 ∧
        p.2.size = ((v.sectors dirSect).record dirIdx).size ∧ ∀ q < cs.length * g.clustSize,
          p.2.byteAt g v' cs q = (v.sectors (g.fileSect cs (q / 512))).byte (q % 512))
      fun _ _ ↦ False := by
  have hbuf : s.buf = v.sectors dirSect := by
    rw [hload.buf, h.shows.volume]
  have hlen : 0 < cs.length := by
    cases cs with
    | nil => exact nomatch hclust
    | cons c cs => exact Nat.succ_pos _
  have htrunc : ¬ (((v.sectors dirSect).record dirIdx).size ≠ 0 ∧ flags &&& FAT_TRUNC ≠ 0) :=
    fun hboth ↦ hboth.2 hflags.1
  have hsize_lt : ((v.sectors dirSect).record dirIdx).size < 2 ^ 32 := by
    have hlt := Block.field_lt ((v.sectors dirSect).record dirIdx) 28 4
    rwa [show 256 ^ 4 = 2 ^ 32 from by norm_num] at hlt
  have hsize_eq : (File.ofEntry dirSect dirIdx flags ((v.sectors dirSect).record dirIdx) f₀.buf).size =
      ((v.sectors dirSect).record dirIdx).size := by
    unfold File.ofEntry
    dsimp only
    rw [if_neg htrunc]
  have hready : File.Ready g v (.ofEntry dirSect dirIdx flags (s.buf.record dirIdx) f₀.buf) cs := by
    rw [hbuf]
    refine ⟨⟨hclust, ?_, ?_, ?_, Nat.two_pow_pos 32⟩, Or.inl rfl, nofun, nofun⟩
    · change cs[0 / g.clustSize]? = _
      rw [Nat.zero_div, ← List.head?_eq_getElem?]
      exact hclust
    · rw [hsize_eq]
      exact hsize
    · rw [hsize_eq]
      exact hsize_lt
  refine Yields.get_bind (Yields.modify_bind ?_)
  rw [if_neg (not_not.mpr hflags.2)]
  refine Yields.get_bind (Yields.ite (fun hout ↦ ?_) fun _ ↦ ?_)
  · exact absurd (show (0 : Int) < 0 ∨ (0 : Int) > 0xffffffff from hout) (by decide)
  refine (seekTo_spec hg h hready (Nat.two_pow_pos 32)).mono ?_ ?_
  · rintro _ p ⟨v', cs', hserved, hopen, hhandle, hoffset, hbytes, hsame⟩
    obtain rfl := hsame (by rwa [Nat.zero_div])
    refine ⟨v', hserved, hopen, hoffset, ?_, fun q hq ↦ ?_⟩
    · rw [(congrArg Handle.size hhandle :), hbuf]
      exact hsize_eq
    · rw [hbytes q hq, File.byteAt, WriteBack.view_of_none (File.cache_key_fresh rfl)]
      rfl
  · rintro e p ⟨-, -, -, -, -, -, -, -, -, -, i, hi, -⟩
    rw [Nat.zero_div, Nat.zero_sub] at hi
    exact absurd hi (Nat.not_lt_zero i)

/-- What has been closed can be opened again after the card has been mounted again, and it is the
same. -/
theorem file_survives_remount {s' : Fat} {f' f₀ : File} {flags : Nat} (hg : g.WellFormed)
    (h : Serving g dirs rest s v cs) (hf : f.Open g v cs) (hentry : f.Entry g dirs v)
    (hsync : fatFileSync g ts (s, f) = .ok ⟨⟩ (s', f'))
    (hflags : flags &&& FAT_TRUNC = 0 ∧ flags &&& FAT_APPEND = 0) :
    Yields (onFirst (updateBuf f.dirSect) >>= fun _ ↦ openEntry g f.dirSect f.dirIdx flags)
      (s'.remounted g, f₀)
      (fun _ p ↦ ∃ v', Serving g dirs rest p.1 v' cs ∧ p.2.Open g v' cs ∧
        p.2.stream g v' cs = { f.stream g v cs with pos := 0 })
      fun _ _ ↦ False := by
  obtain ⟨v', hleft⟩ := (fatFileSync_spec hg h hf hentry).ok hsync
  have hentry' := hleft.entryOf hf hentry
  have hfile : f' = { f with accessed := false, modified := false } := hleft.file
  have hshows : s'.Shows v' := hleft.serving.shows
  have hcard : s'.device.sectors = v'.sectors := hshows.on_card hleft.onCard
  have hmounted : Serving g dirs rest (s'.remounted g) (s'.remounted g).volume cs := by
    refine ⟨Fat.mounted_shows _ _ _, hleft.serving.consistent.remounted hshows hleft.onCard, ?_,
      Geometry.kept_of_lt ?_, hleft.serving.dirs_sub⟩
    · intro hfaulty
      refine hleft.serving.sound ?_
      rwa [Volume.Faulty, ← hshows.fails]
    · have hinfo := hg.info_lt_data
      change 0 < g.dataSect
      omega
  have hsectors : (s'.remounted g).volume.sectors = v'.sectors := hcard
  have hdir : g.Kept dirs f.dirSect := Or.inr hentry.dir
  have hpos : f.dirSect ≠ 0 := by
    have hdata := hentry.dir.data_le
    have hinfo := hg.info_lt_data
    omega
  refine Yields.bind (Q := fun _ p ↦ Serving g dirs rest p.1 (s'.remounted g).volume cs ∧
    p.1.Loaded f.dirSect) (Yields.onFirst (((updateBuf_keeps hdir).and hmounted.resides
      (updateBuf_spec hmounted.shows hpos)).mono (fun _ s₁ hq ↦
        ⟨{ hmounted with shows := hq.1.1, resides := hq.2 }, hq.1.2⟩) fun _ _ hE ↦
          hmounted.sound hE.1.2.1)) ?_
  rintro _ ⟨s₁, f₁⟩ ⟨h₁, hload⟩
  have hclust : ((v'.sectors f.dirSect).record f.dirIdx).cluster = f.sclust := by
    have hclust := hentry'.clust
    rwa [hfile] at hclust
  have hsize : ((v'.sectors f.dirSect).record f.dirIdx).size = f.size := by
    have hsize := hentry'.size (by rw [hfile])
    rwa [hfile] at hsize
  refine (openEntry_spec hg h₁ hload ?_ ?_ hflags).mono ?_ fun _ _ hE ↦ hE
  · rw [hsectors, hclust]
    exact hf.head
  · rw [hsectors, hsize]
    exact hf.size_le
  · rintro _ p ⟨v₂, hserved, hopen, hoffset, hsize₂, hbytes⟩
    refine ⟨v₂, hserved.toServing, hopen, ?_⟩
    rw [hsectors, hsize] at hsize₂
    unfold File.stream
    rw [hoffset, hsize₂]
    congr 1
    refine List.map_congr_left fun q hq ↦ ?_
    have hlt : q < cs.length * g.clustSize := (List.mem_range.mp hq).trans_le hf.size_le
    rw [hbytes q hlt, hsectors]
    exact (hleft.byteAt hg hentry hlt).2

theorem sample_entry (i : Fin 2) : (File.sample i).Entry .small [[2]] Fat.sample.volume where
  dir := ⟨[2], List.mem_singleton_self _, 2, List.mem_singleton_self _, 0, by decide, rfl⟩
  aligned := Dvd.intro _ rfl
  inSector := by
    have hlt := i.isLt
    change 32 * i.val < 512
    omega
  clust := by
    change ((Fat.sample.volume.sectors 5).record (32 * i)).cluster = 3 + i
    rw [sample_dir]
    match i with
    | 0 => decide
    | 1 => decide
  size := nofun

theorem file_survives_remount_sample : ∃ s' f',
    fatFileSync .small ⟨12, 30, 0, 1, 1, 2024⟩ (.sample, .sample 0) = .ok ⟨⟩ (s', f') ∧
      Yields (onFirst (updateBuf 5) >>= fun _ ↦ openEntry .small 5 0 3)
        (s'.remounted .small, .sample 0)
        (fun _ p ↦ ∃ v', p.2.stream .small v' [3] =
          { (File.sample 0).stream .small Fat.sample.volume [3] with pos := 0 })
        fun _ _ ↦ False := by
  cases hcall : fatFileSync .small ⟨12, 30, 0, 1, 1, 2024⟩ (.sample, .sample 0) with
  | error e p =>
      exact ((fatFileSync_spec small_wellFormed sample_serving (sample_open 0)
        (sample_entry 0)).error hcall).elim
  | ok r p =>
      refine ⟨p.1, p.2, rfl, ?_⟩
      refine (file_survives_remount small_wellFormed sample_serving (sample_open 0)
        (sample_entry 0) hcall (by decide)).mono ?_ fun _ _ hE ↦ hE
      rintro _ q ⟨v', -, -, hstream⟩
      exact ⟨v', hstream⟩

end

end DemosOS.Fat32
