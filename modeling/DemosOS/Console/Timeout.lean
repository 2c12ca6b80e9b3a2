import DemosOS.Console.Receive
import DemosOS.Sched.Critical

/-!
# Receive causes

The interrupt handler empties the receive FIFO in two places.  What the loop of the receive
interrupt reads goes to the ring; what the loop of the receive timeout reads is echoed and lost.
-/

namespace DemosOS

/-! ## What the receive loop does -/

/-- Nothing enters a full ring, and something does if there is room and a word without errors. -/
theorem Uart.accepts_ne_nil {u : Uart} {fifo : List (BitVec 32)} :
    u.accepts fifo ≠ [] ↔ u.HasRoom ∧ ∃ dr ∈ fifo, rxError dr = 0 := by
  induction fifo generalizing u with
  | nil => simp [accepts]
  | cons dr fifo ih =>
      rw [accepts]
      by_cases herr : rxError dr = 0
      · rw [if_neg (not_not.mpr herr)]
        by_cases hroom : u.HasRoom
        · rw [if_pos hroom]
          exact iff_of_true (by simp) ⟨hroom, dr, List.mem_cons_self, herr⟩
        · have hstore : u.store (dataByte dr) = u := if_neg hroom
          rw [if_neg hroom, hstore, ih]
          exact iff_of_false (fun h ↦ hroom h.1) fun h ↦ hroom h.1
      · rw [if_pos herr, ih, List.exists_mem_cons_iff]
        simp only [herr, false_or]

namespace Kernel

variable {k k' : Kernel Pointers}

/-- A word leaves every process where it is or makes it `READY`. -/
theorem receiveWord_state {dr : BitVec 32} (h : k.receiveWord dr = some k') (p : PcbPtr) :
    (k'.pcb p).state = (k.pcb p).state ∨ (k'.pcb p).state = .ready := by
  unfold receiveWord at h
  split_ifs at h
  · obtain rfl := Option.some.inj h
    exact .inl rfl
  · exact (wakeReaders_spec h).1.state_or_ready p

theorem receiveWords_state {fifo : List (BitVec 32)} (h : fifo.foldlM receiveWord k = some k')
    (p : PcbPtr) : (k'.pcb p).state = (k.pcb p).state ∨ (k'.pcb p).state = .ready := by
  refine Lib.foldlM_invariant (I := fun k₁ : Kernel Pointers ↦
    (k₁.pcb p).state = (k.pcb p).state ∨ (k₁.pcb p).state = .ready)
    (fun {k₁ dr k₂} hstate hround ↦ ?_) h (.inl rfl)
  rcases receiveWord_state hround p with hsame | hready
  · rwa [hsame]
  · exact .inr hready

/-- The handler: the receive loop, or the timeout loop, which the receive loop leaves nothing. -/
theorem handleUartIrq_eq (mis : BitVec 32) (fifo : List (BitVec 32)) (k : Kernel Pointers) :
    k.handleUartIrq mis fifo =
      if mis &&& (1#32 <<< 4) ≠ 0 then (fifo.foldlM receiveWord k).map fun k ↦ ([], k)
      else if mis &&& (1#32 <<< 6) ≠ 0 then some ([], k) else some (fifo, k) := by
  unfold handleUartIrq
  by_cases hrx : mis &&& (1#32 <<< 4) ≠ 0
  · rw [if_pos hrx, if_pos hrx]
    cases fifo.foldlM receiveWord k with
    | none => rfl
    | some k => exact ite_self _
  · rw [if_neg hrx, if_neg hrx]
    rfl

end Kernel

/-! ## Bytes that are read -/

/-- The words enter the ring in order: each byte without error bits is appended, unless the ring is
full when it is read, and if one is appended whoever waited for input is `READY`. -/
structure Appended (words : List (BitVec 32)) (k k' : Kernel Pointers) : Prop where
  ring : ∀ bytes, k.uart.Holds bytes → k'.uart.Holds (bytes ++ k.uart.accepts words)
  awake : k.uart.accepts words ≠ [] → ∀ i < k.nProcesses, ∀ p, k.processes i = some p →
    (k.pcb p).state = .waitingUartInput → (k'.pcb p).state = .ready

/-- What the receive loop reads is appended. -/
theorem Appended.words {k k' : Kernel Pointers} {words : List (BitVec 32)}
    (h : words.foldlM Kernel.receiveWord k = some k') : Appended words k k' := by
  have hint := Interrupted.words h
  refine ⟨fun bytes hbytes ↦ ?_, fun hsome i hi p hp hw ↦ ?_⟩
  · rw [hint.uart]
    exact hbytes.storeAll words
  · have hawake := hint.awake (Uart.accepts_ne_nil.mp hsome).2 i hi p hp
    exact (Kernel.receiveWords_state h p).resolve_left fun hsame ↦ hawake (hsame.trans hw)

/-- The timeout interrupt comes without the receive interrupt. -/
def OnlyTimeout (mis : BitVec 32) : Prop :=
  mis &&& (1#32 <<< 6) ≠ 0 ∧ mis &&& (1#32 <<< 4) = 0

instance (mis : BitVec 32) : Decidable (OnlyTimeout mis) := inferInstanceAs (Decidable (_ ∧ _))

/-- The handler keeps every byte for which there is room, and wakes who waits, unless the timeout
interrupt comes alone while there is room in the ring and a byte without error bits in the FIFO. -/
theorem received_appended_iff {k : Kernel Pointers} {a : Kernel Lists} (h : InOrder k a)
    {bytes : List UInt8} (hring : k.uart.Holds bytes) (mis : BitVec 32) (fifo : List (BitVec 32)) :
    (∃ words rest k', k.handleUartIrq mis fifo = some (rest, k') ∧ fifo = words ++ rest ∧
      Appended words k k') ↔
      ¬ (OnlyTimeout mis ∧ k.uart.HasRoom ∧ ∃ dr ∈ fifo, rxError dr = 0) := by
  rw [Kernel.handleUartIrq_eq]
  by_cases hrx : mis &&& (1#32 <<< 4) ≠ 0
  · obtain ⟨k', -, hk', -⟩ := h.receiveWords fifo
    rw [if_pos hrx, hk']
    exact iff_of_true ⟨fifo, [], k', rfl, (List.append_nil _).symm, .words hk'⟩
      fun hc ↦ hrx hc.1.2
  · rw [if_neg hrx]
    by_cases htimeout : mis &&& (1#32 <<< 6) ≠ 0
    · -- the timeout loop reads everything and the kernel is as before
      rw [if_pos htimeout]
      constructor
      · rintro ⟨words, rest, k', hrun, hwords, happended⟩ ⟨-, hsome⟩
        obtain ⟨rfl, rfl⟩ := Prod.mk.inj (Option.some.inj hrun)
        rw [List.append_nil] at hwords
        subst hwords
        have hgrown := (happended.ring bytes hring).contents_eq
        rw [hring.contents_eq] at hgrown
        exact Uart.accepts_ne_nil.mpr hsome (List.append_right_eq_self.mp hgrown.symm)
      · intro hnot
        have hnone : k.uart.accepts fifo = [] := by
          by_contra hne
          exact hnot ⟨⟨htimeout, not_not.mp hrx⟩, Uart.accepts_ne_nil.mp hne⟩
        refine ⟨fifo, [], k, rfl, (List.append_nil _).symm, fun l hl ↦ ?_,
          fun hne ↦ absurd hnone hne⟩
        rw [hnone, List.append_nil]
        exact hl
    · rw [if_neg htimeout]
      exact iff_of_true ⟨[], fifo, k, rfl, rfl, .words rfl⟩ fun hc ↦ htimeout hc.1.1

/-- A process waits for input and both causes are pending: of the two words the one without error
bits is kept. -/
theorem received_appended_reader : ∃ k a,
    runAll readerRun (Kernel.boot .roundRobin fun _ ↦ 0) = some k ∧ InOrder k a ∧
    k.uart.accepts [0x141#32, 0x42#32] = [0x42] ∧
    ∃ words rest k', k.handleUartIrq 0x50#32 [0x141#32, 0x42#32] = some (rest, k') ∧
      [0x141#32, 0x42#32] = words ++ rest ∧ Appended words k k' := by
  have hrun : (runAll readerRun (Kernel.boot .roundRobin fun _ ↦ 0)).any (fun k ↦
      k.uart.head = 0 ∧ k.uart.tail = 0 ∧ k.uart.accepts [0x141#32, 0x42#32] = [0x42]) = true := by
    decide +kernel
  obtain ⟨k, hk, hspec⟩ := (Option.any_eq_true _ _).mp hrun
  obtain ⟨hhead, htail, haccepts⟩ := of_decide_eq_true hspec
  obtain ⟨a, ha⟩ := ((reachable_boot _ _).runAll hk).sound
  have hempty : k.uart.Holds [] := by
    rw [Uart.Holds, hhead, htail]
    exact Lib.Ring.Represents.nil (by decide)
  exact ⟨k, a, hk, ha.inOrder, haccepts,
    (received_appended_iff ha.inOrder hempty 0x50#32 [0x141#32, 0x42#32]).mpr fun hc ↦
      absurd hc.1 (by decide)⟩

/-- The timeout interrupt alone, with a byte in the FIFO and an empty ring. -/
theorem received_appended_false : ¬ ∀ (k : Kernel Pointers) (a : Kernel Lists) (bytes : List UInt8),
    InOrder k a → k.uart.Holds bytes → ∀ (mis : BitVec 32) (fifo : List (BitVec 32)),
      ∃ words rest k', k.handleUartIrq mis fifo = some (rest, k') ∧ fifo = words ++ rest ∧
        Appended words k k' := by
  intro hall
  have hempty : (Kernel.boot .roundRobin fun _ ↦ 0).uart.Holds [] :=
    Lib.Ring.Represents.nil (by decide)
  obtain ⟨words, rest, k', hrun, hwords, happended⟩ :=
    hall _ _ [] (boot_sound .roundRobin fun _ ↦ 0).inOrder hempty 0x40#32 [0x41#32]
  obtain ⟨rfl, rfl⟩ := Prod.mk.inj (Option.some.inj hrun)
  rw [List.append_nil] at hwords
  subst hwords
  have hgrown := (happended.ring [] hempty).empty_iff.mp rfl
  exact absurd hgrown (by decide)

end DemosOS
