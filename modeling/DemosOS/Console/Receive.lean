import DemosOS.Console.Frame
import DemosOS.Lib.Ring

/-!
# The receive path

What `handle_uart_irq` does: it puts the bytes it accepts in the ring, in the order in which
it reads them, and if it reads any it leaves nobody waiting for console input.  That a byte is
dropped is the case of a full ring.
-/

namespace DemosOS

open Lib

/-! ## The ring -/

/-- The bytes in the ring, the next one to be read first. -/
def Uart.Holds (u : Uart) (bytes : List UInt8) : Prop :=
  Ring.Represents UART_BUFFER_SIZE u.head u.tail u.buffer bytes

namespace Uart.Holds

variable {u : Uart} {bytes : List UInt8}

/-- The ring holds one byte less than it has cells. -/
theorem length_le (h : u.Holds bytes) : bytes.length ≤ UART_BUFFER_SIZE - 1 :=
  Nat.le_sub_one_of_lt h.length_lt

/-- There is room until the ring holds one byte less than it has cells. -/
theorem hasRoom_iff (h : u.Holds bytes) : u.HasRoom ↔ bytes.length < UART_BUFFER_SIZE - 1 := by
  have hlen := h.length_le
  unfold Uart.HasRoom
  rw [ne_eq, Ring.Represents.full_iff h]
  unfold UART_BUFFER_SIZE at hlen ⊢
  omega

/-- A byte enters the ring at its end, or is dropped. -/
theorem store (h : u.Holds bytes) (c : UInt8) :
    (u.store c).Holds (bytes ++ if u.HasRoom then [c] else []) := by
  unfold Uart.store
  dsimp only
  by_cases hroom : u.HasRoom
  · have hroom' : (u.head + 1) % UART_BUFFER_SIZE ≠ u.tail := hroom
    rw [if_pos hroom, if_pos hroom']
    exact (Ring.Represents.write_head h c).advance_head hroom' (Function.update_self ..)
  · have hroom' : ¬ (u.head + 1) % UART_BUFFER_SIZE ≠ u.tail := hroom
    rw [if_neg hroom, if_neg hroom', List.append_nil]
    exact h

/-- The bytes of several words. -/
theorem storeAll (h : u.Holds bytes) (fifo : List (BitVec 32)) :
    (u.storeAll fifo).Holds (bytes ++ u.accepts fifo) := by
  induction fifo generalizing u bytes with
  | nil => simpa [Uart.accepts, Uart.storeAll] using h
  | cons dr fifo ih =>
      rw [Uart.storeAll, List.foldl_cons, Uart.accepts]
      by_cases herr : rxError dr ≠ 0
      · rw [if_pos herr, if_pos herr]
        exact ih h
      · rw [if_neg herr, if_neg herr]
        have hnext := ih (h.store (dataByte dr))
        by_cases hroom : u.HasRoom
        · rw [if_pos hroom, List.append_assoc] at hnext
          rw [if_pos hroom]
          exact hnext
        · rw [if_neg hroom, List.append_nil] at hnext
          rw [if_neg hroom]
          exact hnext

/-- The cell at `uart_tail` holds the next byte, and moving `uart_tail` takes it out. -/
theorem pop {c : UInt8} (h : u.Holds (c :: bytes)) : u.buffer u.tail = c ∧
    Uart.Holds { u with tail := (u.tail + 1) % UART_BUFFER_SIZE } bytes :=
  Ring.Represents.advance_tail h

/-- The owner is not part of the ring. -/
theorem setOwner (h : u.Holds bytes) (owner : Option PcbPtr) :
    Uart.Holds { u with owner := owner } bytes := h

/-- The test for an empty ring. -/
theorem empty_iff (h : u.Holds bytes) : u.head = u.tail ↔ bytes = [] :=
  Ring.Represents.empty_iff h

/-- A ring that is not empty has a next byte. -/
theorem eq_cons (h : u.Holds bytes) (hne : u.tail ≠ u.head) :
    ∃ rest, bytes = u.buffer u.tail :: rest := by
  cases bytes with
  | nil => exact absurd (h.empty_iff.mpr rfl).symm hne
  | cons c rest => exact ⟨rest, by rw [(pop h).1]⟩

end Uart.Holds

/-- Words leave the owner alone. -/
theorem Uart.storeAll_owner (u : Uart) (fifo : List (BitVec 32)) :
    (u.storeAll fifo).owner = u.owner := by
  induction fifo generalizing u with
  | nil => rfl
  | cons dr fifo ih =>
      refine (ih _).trans ?_
      dsimp only
      split_ifs
      · rfl
      · unfold Uart.store
        dsimp only
        split_ifs <;> rfl

/-- Words with errors leave the ring alone. -/
theorem Uart.storeAll_of_errors {u : Uart} {fifo : List (BitVec 32)}
    (h : ¬ ∃ dr ∈ fifo, rxError dr = 0) : u.storeAll fifo = u := by
  induction fifo generalizing u with
  | nil => rfl
  | cons dr fifo ih =>
      have herr : rxError dr ≠ 0 := fun he ↦ h ⟨dr, List.mem_cons_self, he⟩
      rw [Uart.storeAll, List.foldl_cons, if_pos herr]
      exact ih fun ⟨dr', hmem, he⟩ ↦ h ⟨dr', List.mem_cons_of_mem _ hmem, he⟩

/-! ## The handler -/

/-- What a console interrupt does that reads the given words. -/
structure Interrupted (fifo : List (BitVec 32)) (k k' : Kernel Pointers) : Prop where
  currentProcess : k'.currentProcess = k.currentProcess
  table : SameTable k.toGlobals k'.toGlobals
  uart : k'.uart = k.uart.storeAll fifo
  waiting : ∀ p, (k'.pcb p).state = .waitingUartInput → (k.pcb p).state = .waitingUartInput
  zombie : ∀ p, (k.pcb p).state ≠ .zombie → (k'.pcb p).state ≠ .zombie
  awake : (∃ dr ∈ fifo, rxError dr = 0) → ∀ i < k.nProcesses, ∀ p, k.processes i = some p →
    (k'.pcb p).state ≠ .waitingUartInput

namespace Kernel

variable {k k' : Kernel Pointers}

/-- The wake-up loop leaves nobody in its slots waiting. -/
theorem wakeReaders_spec {slots : List Nat} (h : slots.foldlM wakeReader k = some k') :
    Updates False k.toGlobals k'.toGlobals ∧ ∀ i ∈ slots, ∀ p, k.processes i = some p →
      (k'.pcb p).state ≠ .waitingUartInput := by
  induction slots generalizing k with
  | nil =>
      obtain rfl := Option.some.inj h
      exact ⟨.refl _, by simp⟩
  | cons j slots ih =>
      rw [List.foldlM_cons] at h
      obtain ⟨k₁, hk₁, h⟩ := Option.bind_eq_some_iff.mp h
      obtain ⟨hupdates, hrest⟩ := ih h
      unfold wakeReader at hk₁
      split at hk₁
      · simp at hk₁
      · rename_i p hp
        have hone : Updates False k.toGlobals k₁.toGlobals := updates_wakeIf hk₁
        refine ⟨hone.trans hupdates, fun i hi x hx ↦ ?_⟩
        rcases List.mem_cons.mp hi with rfl | hi
        · -- who was woken before stays awake
          obtain rfl := Option.some.inj (hp.symm.trans hx)
          intro hstate
          have hsame := hupdates.steady.waiting p (by rw [hstate]; trivial)
          exact wakeIf_state (s := .waitingUartInput) trivial hk₁ (hsame.symm.trans hstate)
        · refine hrest i hi x ?_
          rw [Globals.processes_of_frozen hone.steady.frozen]
          exact hx

/-- A word with an error is dropped; any other enters the ring, if there is room, and wakes
everybody. -/
theorem receiveWord_spec {dr : BitVec 32} (h : k.receiveWord dr = some k') :
    Interrupted [dr] k k' := by
  have htable := SameTable.receiveWord h
  unfold receiveWord at h
  split_ifs at h with herr
  · obtain rfl := Option.some.inj h
    refine ⟨rfl, htable, ?_, fun _ ↦ id, fun _ ↦ id, ?_⟩
    · rw [Uart.storeAll_of_errors]
      rintro ⟨dr', hmem, he⟩
      exact herr (List.mem_singleton.mp hmem ▸ he)
    · rintro ⟨dr', hmem, he⟩
      exact absurd (List.mem_singleton.mp hmem ▸ he) herr
  · obtain ⟨hupdates, hawake⟩ := wakeReaders_spec h
    have hsteady := hupdates.steady
    have huart := congrArg Globals.uart hsteady.frozen
    refine ⟨hsteady.currentProcess, htable, ?_, fun p hp ↦ ?_, fun p hp ↦ hupdates.not_zombie hp,
      fun _ i hi p hp ↦ hawake i (List.mem_range.mpr hi) p hp⟩
    · rw [Uart.storeAll, List.foldl_cons, if_neg herr]
      exact huart
    · exact (hsteady.waiting p (by rw [hp]; trivial)).symm.trans hp

end Kernel

namespace Interrupted

variable {k k₁ k' : Kernel Pointers} {fifo rest : List (BitVec 32)}

theorem refl (k : Kernel Pointers) : Interrupted [] k k :=
  ⟨rfl, .refl _, rfl, fun _ ↦ id, fun _ ↦ id, by simp⟩

theorem append (h : Interrupted fifo k k₁) (h' : Interrupted rest k₁ k') :
    Interrupted (fifo ++ rest) k k' where
  currentProcess := h'.currentProcess.trans h.currentProcess
  table := h.table.trans h'.table
  uart := by rw [h'.uart, h.uart, Uart.storeAll, Uart.storeAll, Uart.storeAll, List.foldl_append]
  waiting p := h.waiting p ∘ h'.waiting p
  zombie p := h'.zombie p ∘ h.zombie p
  awake hword i hi p hp hstate := by
    obtain ⟨dr, hmem, herr⟩ := hword
    rcases List.mem_append.mp hmem with hmem | hmem
    · exact h.awake ⟨dr, hmem, herr⟩ i hi p hp (h'.waiting p hstate)
    · refine h'.awake ⟨dr, hmem, herr⟩ i ?_ p ?_ hstate
      · rwa [h.table.nProcesses]
      · rwa [h.table.processes]

theorem words (h : fifo.foldlM Kernel.receiveWord k = some k') : Interrupted fifo k k' := by
  induction fifo generalizing k with
  | nil =>
      obtain rfl := Option.some.inj h
      exact refl k
  | cons dr fifo ih =>
      rw [List.foldlM_cons] at h
      obtain ⟨k₁, hk₁, h⟩ := Option.bind_eq_some_iff.mp h
      exact append (Kernel.receiveWord_spec hk₁) (ih h)

end Interrupted

/-- A console interrupt. -/
theorem Kernel.handleUartIrq_spec {k k' : Kernel Pointers} {mis : BitVec 32}
    {fifo rest : List (BitVec 32)} (h : k.handleUartIrq mis fifo = some (rest, k')) :
    Interrupted (received mis fifo) k k' := by
  unfold Kernel.handleUartIrq at h
  unfold received
  by_cases hrx : mis &&& (1#32 <<< 4) ≠ 0
  · simp only [if_pos hrx] at h ⊢
    obtain ⟨⟨words, k₁⟩, hk₁, h⟩ := Option.bind_eq_some_iff.mp h
    obtain ⟨k₂, hk₂, hk₁⟩ := Option.map_eq_some_iff.mp hk₁
    obtain ⟨-, rfl⟩ := Prod.mk.inj hk₁
    split_ifs at h
    · obtain ⟨-, rfl⟩ := Prod.mk.inj (Option.some.inj h)
      exact .words hk₂
    · obtain ⟨-, rfl⟩ := Prod.mk.inj (Option.some.inj h)
      exact .words hk₂
  · simp only [if_neg hrx] at h ⊢
    split_ifs at h
    · obtain ⟨-, rfl⟩ := Prod.mk.inj (Option.some.inj h)
      exact .refl k
    · obtain ⟨-, rfl⟩ := Prod.mk.inj (Option.some.inj h)
      exact .refl k

end DemosOS
