import DemosOS.Ipc.Exchange
import DemosOS.Ipc.Ring
import DemosOS.Lib.Interleaving

/-!
# Blocking senders and receivers

`send_message` and `receive_message` as sequences of steps, with timer ticks in between:
an attempt to push or pop (with the wake-ups that follow a successful one), the write of
the waiting state, and the call of `schedule`.

A process that found the ring full, or empty, and is preempted before it has written its
waiting state misses the wake-up that another process may give meanwhile.  If no tick
enters the scheduler at that point, nobody sleeps on a ring that has what it waits for.
-/

namespace DemosOS

open Lib

/-! ## The steps -/

/-- Where a process is in the code of message passing. -/
inductive IpcPoint
  | user
  | /-- At the top of the loop of `send_message`. -/
    sending (destination : PcbPtr) (body : List UInt8)
  | /-- The push has failed, the waiting state is not written yet. -/
    sendBlock (destination : PcbPtr) (body : List UInt8)
  | /-- Before the call of `schedule` in `send_message`. -/
    sendSchedule (destination : PcbPtr) (body : List UInt8)
  | /-- At the top of the loop of `receive_message`. -/
    receiving
  | /-- The pop has failed, the waiting state is not written yet. -/
    receiveBlock
  | /-- Before the call of `schedule` in `receive_message`. -/
    receiveSchedule
deriving DecidableEq

namespace IpcPoint

/-- The process a message is being sent to. -/
def destination : IpcPoint → Option PcbPtr
  | sending d _ | sendBlock d _ | sendSchedule d _ => some d
  | _ => none

/-- Between a failed attempt and the write of the waiting state. -/
def Blocks : IpcPoint → Prop
  | sendBlock _ _ | receiveBlock => True
  | _ => False

instance (point : IpcPoint) : Decidable point.Blocks :=
  match point with
  | sendBlock _ _ | receiveBlock => isTrue trivial
  | user | sending _ _ | sendSchedule _ _ | receiving | receiveSchedule => isFalse id

end IpcPoint

/-- What the running process does next; from user code it may start a system call. -/
inductive IpcChoice
  | send (pid : Int) (body : List UInt8)
  | receive
  | proceed

/-- The next step of the running process.  Init makes no system call. -/
def ipcAct [KernelImage] (choice : IpcChoice) (k : Kernel Pointers) (point : IpcPoint) :
    Option (Kernel Pointers × IpcPoint) :=
  match choice, point with
  | .send pid body, .user =>
      if k.currentProcess = .initProcess then none
      else match k.searchProcess pid with
        | none => some (k, .user)
        | some d => some (k, .sending d body)
  | .receive, .user => if k.currentProcess = .initProcess then none else some (k, .receiving)
  | .proceed, .sending d body =>
      (k.attemptSend d body).map fun r ↦ (r.2, if r.1 = -1 then .sendBlock d body else .user)
  | .proceed, .sendBlock d body =>
      some (k.mapGlobals fun g ↦ g.setState g.currentProcess .waitingToSendMessage,
        .sendSchedule d body)
  | .proceed, .sendSchedule d body => k.schedule.map fun k ↦ (k, .sending d body)
  | .proceed, .receiving =>
      k.attemptReceive.map fun r ↦ (r.2, if r.1 = none then .receiveBlock else .user)
  | .proceed, .receiveBlock =>
      some (k.mapGlobals fun g ↦ g.setState g.currentProcess .waitingToReceiveMessage,
        .receiveSchedule)
  | .proceed, .receiveSchedule => k.schedule.map fun k ↦ (k, .receiving)
  | _, _ => none

/-- Processes that exchange messages, with timer ticks between any two steps. -/
def ipcMachine [KernelImage] : Machine (Kernel Pointers) PcbPtr IpcPoint IpcChoice where
  running k := k.currentProcess
  act := ipcAct
  interrupt k := k.handleTimerTick

abbrev IpcConfig := Config (Kernel Pointers) PcbPtr IpcPoint

/-- Everybody is in user code, no process waits for a message or to send one, and the table
has no slots beyond its size. -/
structure IpcStart (c : IpcConfig) : Prop where
  user : ∀ p, c.point p = .user
  receive : ∀ p, c.shared.Known p → (c.shared.pcb p).state ≠ .waitingToReceiveMessage
  send : ∀ p, c.shared.Known p → (c.shared.pcb p).state ≠ .waitingToSendMessage
  current : c.shared.Known c.shared.currentProcess
  bound : ∀ {i p}, c.shared.processes i = some p → i < N_PROCESSES

/-- No process that has given up the processor waits for a message while its ring holds one,
or waits for room in a ring that has some. -/
def NoLostWakeup (c : IpcConfig) : Prop :=
  ∀ p, c.shared.Known p → p ≠ c.shared.currentProcess →
    ((c.shared.pcb p).state = .waitingToReceiveMessage → c.shared.RingEmpty p) ∧
    ((c.shared.pcb p).state = .waitingToSendMessage →
      ∀ d, (c.point p).destination = some d → c.shared.RingFull d)

/-! ## Attempts -/

theorem Kernel.ringEmpty_congr {k k' : Kernel Pointers} {p : PcbPtr} (h : k'.ring p = k.ring p) :
    k'.RingEmpty p ↔ k.RingEmpty p := by rw [RingEmpty, RingEmpty, h]

theorem Kernel.ringFull_congr {k k' : Kernel Pointers} {p : PcbPtr} (h : k'.ring p = k.ring p) :
    k'.RingFull p ↔ k.RingFull p := by rw [RingFull, RingFull, h]

/-- An exchange through the ring of `owner`: nobody else's ring changes, and nobody is put in
a waiting state. -/
structure Exchanged (owner : PcbPtr) (k k' : Kernel Pointers) : Prop where
  currentProcess : k'.currentProcess = k.currentProcess
  processes : k'.processes = k.processes
  ring : ∀ {p}, p ≠ owner → k'.ring p = k.ring p
  waiting : ∀ p, (k'.pcb p).state.IsWaiting → (k'.pcb p).state = (k.pcb p).state

namespace Exchanged

variable {owner : PcbPtr} {k k₁ k₂ : Kernel Pointers}

theorem refl (owner : PcbPtr) (k : Kernel Pointers) : Exchanged owner k k :=
  ⟨rfl, rfl, fun _ ↦ rfl, fun _ _ ↦ rfl⟩

theorem trans (h : Exchanged owner k k₁) (h' : Exchanged owner k₁ k₂) : Exchanged owner k k₂ where
  currentProcess := h'.currentProcess.trans h.currentProcess
  processes := h'.processes.trans h.processes
  ring hp := (h'.ring hp).trans (h.ring hp)
  waiting p hp := by
    have hp₂ := h'.waiting p hp
    exact hp₂.trans (h.waiting p (hp₂ ▸ hp))

theorem of_writes {k' : Kernel Pointers} (h : RingWrites owner k.toGlobals k'.toGlobals) :
    Exchanged owner k k' where
  currentProcess := h.currentProcess
  processes := h.processes
  ring {p} hp := by
    refine h.keeps (fun g ↦ (g.pcb p).messagesBuffer) ?_ fun g f _ ↦ ?_
    · exact fun h ↦ Globals.field_of_frozen h PCB.messagesBuffer (fun _ ↦ rfl) p
    · exact congrArg PCB.messagesBuffer (Globals.modifyPcb_pcb_of_ne _ _ hp)
  waiting p hp := by
    rcases h.state_or_ready p with hsame | hready
    · exact hsame
    · rw [hready] at hp
      exact hp.elim

end Exchanged

namespace Kernel

variable [KernelImage] {k k' : Kernel Pointers}

/-- A push attempt that returns: it changes nothing if the ring is full, and otherwise
leaves the destination awake. -/
theorem attemptSend_cases {d : PcbPtr} {body : List UInt8} {r : Int}
    (h : k.attemptSend d body = some (r, k')) :
    (r = -1 ∧ k' = k ∧ k.RingFull d) ∨
      (r = 0 ∧ ¬ k.RingFull d ∧ Exchanged d k k' ∧
        (k'.pcb d).state ≠ .waitingToReceiveMessage) := by
  have hex := Exchanged.of_writes (RingWrites.pushMessage h)
  unfold attemptSend at h
  by_cases hfull : k.RingFull d
  · rw [pushMessage_full hfull] at h
    obtain ⟨rfl, rfl⟩ := Prod.mk.inj (Option.some.inj h)
    exact .inl ⟨rfl, rfl, hfull⟩
  · rw [pushMessage_room hfull rfl, Option.map_eq_some_iff] at h
    obtain ⟨k₁, hwake, hr⟩ := h
    obtain ⟨rfl, rfl⟩ := Prod.mk.inj hr
    exact .inr ⟨rfl, hfull, hex, wakeIf_state (s := .waitingToReceiveMessage) trivial hwake⟩

omit [KernelImage] in
theorem wakeSender_spec (owner : PcbPtr) {i : Nat} (h : k.wakeSender i = some k') :
    Exchanged owner k k' ∧ ∀ p, k.processes i = some p →
      (k'.pcb p).state ≠ .waitingToSendMessage := by
  unfold wakeSender at h
  split at h
  · rename_i hnone
    obtain rfl := Option.some.inj h
    refine ⟨.refl owner k, fun p hp ↦ ?_⟩
    rw [hnone] at hp
    simp at hp
  · rename_i p hsome
    refine ⟨.of_writes (.wakeIf h), fun x hx ↦ ?_⟩
    obtain rfl := Option.some.inj (hsome.symm.trans hx)
    exact wakeIf_state (s := .waitingToSendMessage) trivial h

omit [KernelImage] in
/-- The loop over the table leaves no sender of its slots waiting. -/
theorem wakeSenders_spec (owner : PcbPtr) {slots : List Nat}
    (h : slots.foldlM wakeSender k = some k') :
    Exchanged owner k k' ∧ ∀ i ∈ slots, ∀ p, k.processes i = some p →
      (k'.pcb p).state ≠ .waitingToSendMessage := by
  induction slots generalizing k with
  | nil =>
      obtain rfl := Option.some.inj h
      exact ⟨.refl owner k, by simp⟩
  | cons j slots ih =>
      rw [List.foldlM_cons] at h
      obtain ⟨k₁, hk₁, h⟩ := Option.bind_eq_some_iff.mp h
      obtain ⟨hex₁, hslot⟩ := wakeSender_spec owner hk₁
      obtain ⟨hex, hrest⟩ := ih h
      refine ⟨hex₁.trans hex, fun i hi p hp ↦ ?_⟩
      rcases List.mem_cons.mp hi with rfl | hi
      · -- who was woken before stays awake
        intro hstate
        exact hslot p hp ((hex.waiting p (by rw [hstate]; trivial)).symm.trans hstate)
      · exact hrest i hi p (by rw [hex₁.processes]; exact hp)

/-- A pop attempt that returns: it changes nothing if the ring is empty, and otherwise
leaves no sender of the table waiting. -/
theorem attemptReceive_cases {r : Option (List UInt8)} (h : k.attemptReceive = some (r, k')) :
    (r = none ∧ k' = k ∧ k.RingEmpty k.currentProcess) ∨
      (r ≠ none ∧ Exchanged k.currentProcess k k' ∧ ∀ i < N_PROCESSES, ∀ p,
        k.processes i = some p → (k'.pcb p).state ≠ .waitingToSendMessage) := by
  have hex := Exchanged.of_writes (RingWrites.attemptReceive h)
  unfold attemptReceive popMessage at h
  split_ifs at h with hempty
  · obtain ⟨rfl, rfl⟩ := Prod.mk.inj (Option.some.inj h)
    exact .inl ⟨rfl, rfl, hempty⟩
  · obtain ⟨k₁, hk₁, h⟩ := Option.bind_eq_some_iff.mp h
    obtain ⟨rfl, rfl⟩ := Prod.mk.inj (Option.some.inj h)
    obtain ⟨-, hslots⟩ := wakeSenders_spec k.currentProcess hk₁
    exact .inr ⟨by simp, hex, fun i hi p hp ↦ hslots i (List.mem_range.mpr hi) p hp⟩

end Kernel

/-! ## The invariant -/

/-- What holds between any two steps, if no tick enters the scheduler at a blocking point. -/
structure IpcInv (c : IpcConfig) : Prop where
  bound : ∀ {i p}, c.shared.processes i = some p → i < N_PROCESSES
  /-- Whoever waits for a message has an empty ring. -/
  receive : ∀ p, c.shared.Known p → (c.shared.pcb p).state = .waitingToReceiveMessage →
    c.shared.RingEmpty p
  /-- Whoever waits to send waits for a full ring. -/
  send : ∀ p d, c.shared.Known p → (c.shared.pcb p).state = .waitingToSendMessage →
    (c.point p).destination = some d → c.shared.RingFull d
  /-- Only the running process is at a blocking point, and what it found there still holds. -/
  block : ∀ p, (c.point p).Blocks → p = c.shared.currentProcess
  blockReceive : ∀ p, c.point p = .receiveBlock → c.shared.RingEmpty p
  blockSend : ∀ p d body, c.point p = .sendBlock d body → c.shared.RingFull d
  /-- The running process is in a waiting state only until it calls `schedule`. -/
  currentReceive : c.shared.current.state = .waitingToReceiveMessage →
    c.point c.shared.currentProcess = .receiveSchedule
  currentSend : c.shared.current.state = .waitingToSendMessage →
    ∃ d body, c.point c.shared.currentProcess = .sendSchedule d body

namespace IpcInv

variable {c : IpcConfig}

theorem noLostWakeup (h : IpcInv c) : NoLostWakeup c := fun p hp _ ↦
  ⟨h.receive p hp, fun hstate d hd ↦ h.send p d hp hstate hd⟩

theorem ofStart (h : IpcStart c) : IpcInv c where
  bound := h.bound
  receive p hk hp := absurd hp (h.receive p hk)
  send p _ hk hp := absurd hp (h.send p hk)
  block p hp := by
    rw [h.user p] at hp
    exact hp.elim
  blockReceive p hp := by
    rw [h.user p] at hp
    simp at hp
  blockSend p d body hp := by
    rw [h.user p] at hp
    simp at hp
  currentReceive hp := absurd hp (h.receive _ h.current)
  currentSend hp := absurd hp (h.send _ h.current)

section

variable {k : Kernel Pointers} {l : IpcPoint}

/-- A process that is not running is not at a blocking point. -/
theorem not_blocks (h : IpcInv c) {p : PcbPtr} (hp : p ≠ c.shared.currentProcess) :
    ¬ (c.point p).Blocks := fun hb ↦ hp (h.block p hb)

/-- A step of the running process, after which it still runs. -/
theorem act (h : IpcInv c) (hcur : k.currentProcess = c.shared.currentProcess)
    (hproc : k.processes = c.shared.processes)
    (hcurReceive : (k.pcb c.shared.currentProcess).state = .waitingToReceiveMessage →
      l = .receiveSchedule ∧ k.RingEmpty c.shared.currentProcess)
    (hcurSend : (k.pcb c.shared.currentProcess).state = .waitingToSendMessage →
      ∃ d body, l = .sendSchedule d body ∧ k.RingFull d)
    (hreceive : ∀ p, p ≠ c.shared.currentProcess → c.shared.Known p →
      (k.pcb p).state = .waitingToReceiveMessage → k.RingEmpty p)
    (hsend : ∀ p d, p ≠ c.shared.currentProcess → c.shared.Known p →
      (k.pcb p).state = .waitingToSendMessage → (c.point p).destination = some d → k.RingFull d)
    (hblockReceive : l = .receiveBlock → k.RingEmpty c.shared.currentProcess)
    (hblockSend : ∀ d body, l = .sendBlock d body → k.RingFull d) :
    IpcInv ⟨k, Function.update c.point c.shared.currentProcess l⟩ := by
  have hpoint : ∀ {p}, p ≠ c.shared.currentProcess →
      Function.update c.point c.shared.currentProcess l p = c.point p := fun hp ↦
    Function.update_of_ne hp ..
  have hself : Function.update c.point c.shared.currentProcess l c.shared.currentProcess = l :=
    Function.update_self ..
  have hknown : ∀ {p}, k.Known p → c.shared.Known p := fun hk ↦ by
    simpa only [Globals.Known, hproc] using hk
  refine ⟨fun hi ↦ h.bound (hproc ▸ hi), fun p hk hp ↦ ?_, fun p d hk hp hd ↦ ?_, fun p hp ↦ ?_,
    fun p hp ↦ ?_, fun p d body hp ↦ ?_, fun hp ↦ ?_, fun hp ↦ ?_⟩ <;> dsimp only at *
  · by_cases hpc : p = c.shared.currentProcess
    · subst hpc
      exact (hcurReceive hp).2
    · exact hreceive p hpc (hknown hk) hp
  · by_cases hpc : p = c.shared.currentProcess
    · subst hpc
      obtain ⟨d', body, rfl, hfull⟩ := hcurSend hp
      rw [hself] at hd
      obtain rfl := Option.some.inj hd
      exact hfull
    · rw [hpoint hpc] at hd
      exact hsend p d hpc (hknown hk) hp hd
  · by_contra hpc
    rw [hcur] at hpc
    rw [hpoint hpc] at hp
    exact h.not_blocks hpc hp
  · by_cases hpc : p = c.shared.currentProcess
    · subst hpc
      exact hblockReceive (hself.symm.trans hp)
    · rw [hpoint hpc] at hp
      exact absurd (by rw [hp]; trivial) (h.not_blocks hpc)
  · by_cases hpc : p = c.shared.currentProcess
    · subst hpc
      exact hblockSend d body (hself.symm.trans hp)
    · rw [hpoint hpc] at hp
      exact absurd (by rw [hp]; trivial) (h.not_blocks hpc)
  · rw [Globals.current, hcur] at hp
    rw [hcur]
    exact hself.trans (hcurReceive hp).1
  · rw [Globals.current, hcur] at hp
    obtain ⟨d, body, hl, -⟩ := hcurSend hp
    rw [hcur]
    exact ⟨d, body, hself.trans hl⟩

/-- A running process that is not about to call `schedule` is in no waiting state. -/
theorem awake (h : IpcInv c) (hreceive : c.point c.shared.currentProcess ≠ .receiveSchedule)
    (hsend : ∀ d body, c.point c.shared.currentProcess ≠ .sendSchedule d body) :
    c.shared.current.state ≠ .waitingToReceiveMessage ∧
      c.shared.current.state ≠ .waitingToSendMessage := by
  refine ⟨fun hs ↦ hreceive (h.currentReceive hs), fun hs ↦ ?_⟩
  obtain ⟨d, body, hp⟩ := h.currentSend hs
  exact hsend d body hp

/-- The entry of a system call changes nothing but the point of the caller. -/
theorem start (h : IpcInv c) (huser : c.point c.shared.currentProcess = .user)
    (hl : ¬ l.Blocks) : IpcInv ⟨c.shared, Function.update c.point c.shared.currentProcess l⟩ := by
  obtain ⟨hr, hs⟩ := h.awake (by simp [huser]) (by simp [huser])
  refine h.act rfl rfl (fun hw ↦ absurd hw hr) (fun hw ↦ absurd hw hs) (fun p _ ↦ h.receive p)
    (fun p d _ hk hp hd ↦ h.send p d hk hp hd) (fun hb ↦ ?_) fun d body hb ↦ ?_
  · exact absurd (by rw [hb]; trivial) hl
  · exact absurd (by rw [hb]; trivial) hl

/-- The write of a waiting state, at the point where the attempt has failed. -/
theorem wait (h : IpcInv c) {s : ProcessState} (hl : ¬ l.Blocks)
    (hreceive : s = .waitingToReceiveMessage →
      l = .receiveSchedule ∧ c.shared.RingEmpty c.shared.currentProcess)
    (hsend : s = .waitingToSendMessage →
      ∃ d body, l = .sendSchedule d body ∧ c.shared.RingFull d) :
    IpcInv ⟨c.shared.mapGlobals fun g ↦ g.setState g.currentProcess s,
      Function.update c.point c.shared.currentProcess l⟩ := by
  have hring : ∀ p, (c.shared.mapGlobals fun g ↦ g.setState g.currentProcess s).ring p =
      c.shared.ring p := fun p ↦
    Globals.setState_field _ _ _ PCB.messagesBuffer (fun _ _ ↦ rfl) p
  have hself : ((c.shared.mapGlobals fun g ↦ g.setState g.currentProcess s).pcb
      c.shared.currentProcess).state = s := by
    simp [Globals.setState]
  have hother : ∀ {p}, p ≠ c.shared.currentProcess →
      ((c.shared.mapGlobals fun g ↦ g.setState g.currentProcess s).pcb p).state =
        (c.shared.pcb p).state := by
    intro p hp
    simp [Globals.setState, hp]
  refine h.act rfl rfl (fun hw ↦ ?_) (fun hw ↦ ?_) (fun p hpc hk hp ↦ ?_)
    (fun p d hpc hk hp hd ↦ ?_) (fun hb ↦ ?_) fun d body hb ↦ ?_
  · obtain ⟨hl, hempty⟩ := hreceive (hself.symm.trans hw)
    exact ⟨hl, (Kernel.ringEmpty_congr (hring _)).mpr hempty⟩
  · obtain ⟨d, body, hl, hfull⟩ := hsend (hself.symm.trans hw)
    exact ⟨d, body, hl, (Kernel.ringFull_congr (hring d)).mpr hfull⟩
  · exact (Kernel.ringEmpty_congr (hring p)).mpr (h.receive p hk ((hother hpc).symm.trans hp))
  · exact (Kernel.ringFull_congr (hring d)).mpr (h.send p d hk ((hother hpc).symm.trans hp) hd)
  · exact absurd (by rw [hb]; trivial) hl
  · exact absurd (by rw [hb]; trivial) hl

/-- A step of the scheduler.  Either it dispatches a process and leaves nobody at a blocking
point, or the same process runs at the same point. -/
theorem scheduled (h : IpcInv c) (hsched : Scheduled c.shared.toGlobals k.toGlobals)
    {point : PcbPtr → IpcPoint}
    (hdest : ∀ p, (point p).destination = (c.point p).destination)
    (hcases : (k.current.state = .running ∧ ∀ p, ¬ (point p).Blocks) ∨
      (k.currentProcess = c.shared.currentProcess ∧ point = c.point)) : IpcInv ⟨k, point⟩ := by
  have hproc : k.processes = c.shared.processes := Globals.processes_of_frozen hsched.frozen
  have hstate : ∀ {p s}, (k.pcb p).state = s → s.IsWaiting → (c.shared.pcb p).state = s :=
    fun hp hs ↦ (hsched.waiting _ (by rw [hp]; exact hs)).symm.trans hp
  have hempty : ∀ {p}, c.shared.RingEmpty p → k.RingEmpty p :=
    (Kernel.ringEmpty_congr (hsched.ring _)).mpr
  have hfull : ∀ {p}, c.shared.RingFull p → k.RingFull p :=
    (Kernel.ringFull_congr (hsched.ring _)).mpr
  have hknown : ∀ {p}, k.Known p → c.shared.Known p := fun hk ↦ by
    simpa only [Globals.Known, hproc] using hk
  have hreceive : ∀ p, k.Known p → (k.pcb p).state = .waitingToReceiveMessage → k.RingEmpty p :=
    fun p hk hp ↦ hempty (h.receive p (hknown hk) (hstate hp trivial))
  have hsend : ∀ p d, k.Known p → (k.pcb p).state = .waitingToSendMessage →
      (point p).destination = some d → k.RingFull d := fun p d hk hp hd ↦
    hfull (h.send p d (hknown hk) (hstate hp trivial) ((hdest p).symm.trans hd))
  rcases hcases with ⟨hrunning, hblocks⟩ | ⟨hcur, rfl⟩
  · refine ⟨fun hi ↦ h.bound (hproc ▸ hi), hreceive, hsend, fun p hp ↦ absurd hp (hblocks p),
      fun p hp ↦ ?_, fun p d body hp ↦ ?_, fun hp ↦ ?_, fun hp ↦ ?_⟩ <;> dsimp only at *
    · exact absurd (by rw [hp]; trivial) (hblocks p)
    · exact absurd (by rw [hp]; trivial) (hblocks p)
    · simp [hrunning] at hp
    · simp [hrunning] at hp
  · refine ⟨fun hi ↦ h.bound (hproc ▸ hi), hreceive, hsend,
      fun p hp ↦ (h.block p hp).trans hcur.symm, fun p hp ↦ hempty (h.blockReceive p hp),
      fun p d body hp ↦ hfull (h.blockSend p d body hp), fun hp ↦ ?_, fun hp ↦ ?_⟩ <;>
      rw [Globals.current, hcur] at hp <;> dsimp only <;> rw [hcur]
    · exact h.currentReceive (hstate hp trivial)
    · exact h.currentSend (hstate hp trivial)

/-- Nobody is at a blocking point after the running process has left its own. -/
theorem not_blocks_update (h : IpcInv c) (hl : ¬ l.Blocks) (p : PcbPtr) :
    ¬ (Function.update c.point c.shared.currentProcess l p).Blocks := by
  by_cases hpc : p = c.shared.currentProcess
  · subst hpc
    rwa [Function.update_self]
  · rw [Function.update_of_ne hpc]
    exact h.not_blocks hpc

/-- The call of `schedule`, after which the caller is back in its loop. -/
theorem schedule (h : IpcInv c) (hk : c.shared.schedule = some k) (hl : ¬ l.Blocks)
    (hdest : l.destination = (c.point c.shared.currentProcess).destination) :
    IpcInv ⟨k, Function.update c.point c.shared.currentProcess l⟩ := by
  refine h.scheduled (Kernel.scheduled_schedule hk) (fun p ↦ ?_)
    (.inl ⟨Kernel.pickNext_current hk, h.not_blocks_update hl⟩)
  by_cases hpc : p = c.shared.currentProcess
  · subst hpc
    rw [Function.update_self, hdest]
  · rw [Function.update_of_ne hpc]

/-- A timer tick, if it does not enter the scheduler at a blocking point. -/
theorem tick (h : IpcInv c) (hk : c.shared.handleTimerTick = some k)
    (hallowed : (c.point c.shared.currentProcess).Blocks → ¬ c.shared.TickSwitches) :
    IpcInv ⟨k, c.point⟩ := by
  refine h.scheduled (Kernel.scheduled_handleTimerTick hk) (fun _ ↦ rfl) ?_
  rcases Kernel.handleTimerTick_cases hk with ⟨-, hcur⟩ | ⟨hswitch, hrunning⟩
  · exact .inr ⟨hcur, rfl⟩
  · refine .inl ⟨hrunning, fun p hp ↦ ?_⟩
    rw [h.block p hp] at hp
    exact hallowed hp hswitch

section

variable [KernelImage]

/-- One turn of the loop of `send_message`. -/
theorem attemptSend (h : IpcInv c) {d : PcbPtr} {body : List UInt8} {r : Int}
    (hpoint : c.point c.shared.currentProcess = .sending d body)
    (hk : c.shared.attemptSend d body = some (r, k)) :
    IpcInv ⟨k, Function.update c.point c.shared.currentProcess
      (if r = -1 then .sendBlock d body else .user)⟩ := by
  obtain ⟨hr, hs⟩ := h.awake (by simp [hpoint]) (by simp [hpoint])
  rcases Kernel.attemptSend_cases hk with ⟨rfl, rfl, hfull⟩ | ⟨rfl, hroom, hex, hwoken⟩
  · refine h.act rfl rfl (fun hw ↦ absurd hw hr) (fun hw ↦ absurd hw hs) (fun p _ ↦ h.receive p)
      (fun p d _ hk hp hd ↦ h.send p d hk hp hd) (by simp) fun d' body' hb ↦ ?_
    obtain ⟨rfl, -⟩ : d = d' ∧ body = body' := by simpa using hb
    exact hfull
  · have hstate : ∀ {p s}, (k.pcb p).state = s → s.IsWaiting → (c.shared.pcb p).state = s :=
      fun hp hs ↦ (hex.waiting _ (by rw [hp]; exact hs)).symm.trans hp
    refine h.act hex.currentProcess hex.processes (fun hw ↦ absurd (hstate hw trivial) hr)
      (fun hw ↦ absurd (hstate hw trivial) hs) (fun p _ hkn hp ↦ ?_) (fun p d' _ hkn hp hd ↦ ?_)
      (by simp) (by simp)
    · -- a receiver that waits is not the destination, which has been woken
      have hpd : p ≠ d := fun heq ↦ hwoken (heq ▸ hp)
      exact (Kernel.ringEmpty_congr (hex.ring hpd)).mpr
        (h.receive p hkn (hstate hp trivial))
    · -- a sender that waits does so for another destination, since this one had room
      have hfull := h.send p d' hkn (hstate hp trivial) hd
      have hne : d' ≠ d := fun heq ↦ hroom (heq ▸ hfull)
      exact (Kernel.ringFull_congr (hex.ring hne)).mpr hfull

/-- One turn of the loop of `receive_message`. -/
theorem attemptReceive (h : IpcInv c) {r : Option (List UInt8)}
    (hpoint : c.point c.shared.currentProcess = .receiving)
    (hk : c.shared.attemptReceive = some (r, k)) :
    IpcInv ⟨k, Function.update c.point c.shared.currentProcess
      (if r = none then .receiveBlock else .user)⟩ := by
  obtain ⟨hr, hs⟩ := h.awake (by simp [hpoint]) (by simp [hpoint])
  rcases Kernel.attemptReceive_cases hk with ⟨rfl, rfl, hempty⟩ | ⟨hsome, hex, hwoken⟩
  · refine h.act rfl rfl (fun hw ↦ absurd hw hr) (fun hw ↦ absurd hw hs) (fun p _ ↦ h.receive p)
      (fun p d _ hk hp hd ↦ h.send p d hk hp hd) (fun _ ↦ hempty) (by simp)
  · have hstate : ∀ {p s}, (k.pcb p).state = s → s.IsWaiting → (c.shared.pcb p).state = s :=
      fun hp hs ↦ (hex.waiting _ (by rw [hp]; exact hs)).symm.trans hp
    rw [if_neg hsome]
    refine h.act hex.currentProcess hex.processes (fun hw ↦ absurd (hstate hw trivial) hr)
      (fun hw ↦ absurd (hstate hw trivial) hs) (fun p hpc hkn hp ↦ ?_) (fun p d _ hkn hp _ ↦ ?_)
      (by simp) (by simp)
    · exact (Kernel.ringEmpty_congr (hex.ring hpc)).mpr
        (h.receive p hkn (hstate hp trivial))
    · -- all senders of the table have been woken
      obtain ⟨i, hi⟩ := hkn
      exact absurd hp (hwoken i (h.bound hi) p hi)

end

end

section

variable [KernelImage]

/-- What the running process does next keeps the invariant. -/
theorem ipcAct (h : IpcInv c) {choice : IpcChoice} {k : Kernel Pointers} {l : IpcPoint}
    (hact : DemosOS.ipcAct choice c.shared (c.point c.shared.currentProcess) = some (k, l)) :
    IpcInv ⟨k, Function.update c.point c.shared.currentProcess l⟩ := by
  generalize hpoint : c.point c.shared.currentProcess = point at hact
  unfold DemosOS.ipcAct at hact
  split at hact
  · split_ifs at hact
    split at hact
    · obtain ⟨rfl, rfl⟩ := Prod.mk.inj (Option.some.inj hact)
      exact h.start hpoint id
    · obtain ⟨rfl, rfl⟩ := Prod.mk.inj (Option.some.inj hact)
      exact h.start hpoint id
  · split_ifs at hact
    obtain ⟨rfl, rfl⟩ := Prod.mk.inj (Option.some.inj hact)
    exact h.start hpoint id
  · obtain ⟨⟨r, k₁⟩, hk₁, hr⟩ := Option.map_eq_some_iff.mp hact
    obtain ⟨rfl, rfl⟩ := Prod.mk.inj hr
    exact h.attemptSend hpoint hk₁
  · rename_i d body
    obtain ⟨rfl, rfl⟩ := Prod.mk.inj (Option.some.inj hact)
    exact h.wait id (by simp) fun _ ↦ ⟨d, body, rfl, h.blockSend _ d body hpoint⟩
  · obtain ⟨k₁, hk₁, hr⟩ := Option.map_eq_some_iff.mp hact
    obtain ⟨rfl, rfl⟩ := Prod.mk.inj hr
    exact h.schedule hk₁ id (by rw [hpoint]; rfl)
  · obtain ⟨⟨r, k₁⟩, hk₁, hr⟩ := Option.map_eq_some_iff.mp hact
    obtain ⟨rfl, rfl⟩ := Prod.mk.inj hr
    exact h.attemptReceive hpoint hk₁
  · obtain ⟨rfl, rfl⟩ := Prod.mk.inj (Option.some.inj hact)
    exact h.wait id (fun _ ↦ ⟨rfl, h.blockReceive _ hpoint⟩) (by simp)
  · obtain ⟨k₁, hk₁, hr⟩ := Option.map_eq_some_iff.mp hact
    obtain ⟨rfl, rfl⟩ := Prod.mk.inj hr
    exact h.schedule hk₁ id (by rw [hpoint]; rfl)
  · simp at hact

end

end IpcInv

/-! ## Wake-ups -/

/-- No tick enters the scheduler between a failed attempt and the write of the waiting
state. -/
def BlocksUndisturbed : Event IpcChoice → IpcConfig → Prop
  | .act _, _ => True
  | .interrupt, c => (c.point c.shared.currentProcess).Blocks → ¬ c.shared.TickSwitches

instance (e : Event IpcChoice) (c : IpcConfig) : Decidable (BlocksUndisturbed e c) :=
  match e with
  | .act _ => isTrue trivial
  | .interrupt => inferInstanceAs (Decidable (_ → _))

/-- In every run of senders and receivers in which no tick enters the scheduler between a
failed attempt and the write of the waiting state, no wake-up is lost. -/
theorem noLostWakeup_of_undisturbed [KernelImage] {c c' : IpcConfig} (hstart : IpcStart c)
    (hrun : Relation.ReflTransGen (ipcMachine.Step BlocksUndisturbed) c c') : NoLostWakeup c' := by
  have hinv : IpcInv c' := by
    refine Machine.invariant (I := IpcInv) ?_ ?_ hrun (.ofStart hstart)
    · intro c choice k l h _ hact
      exact h.ipcAct hact
    · intro c k h hallowed hk
      exact h.tick hk hallowed
  exact hinv.noLostWakeup

/-- Two processes under round robin, the first of which runs. -/
def pairStart : Option (Kernel Pointers) :=
  runAll [.add (.page 0) (childOfInit 1), .add (.page 1) (childOfInit 2), .tick]
    (Kernel.boot .roundRobin fun _ ↦ 0)

theorem pairStart_spec : ∃ k, pairStart = some k ∧ IpcStart ⟨k, fun _ ↦ .user⟩ := by
  have hrun : pairStart.any (fun k ↦ k.processes 1 = some k.currentProcess ∧
      (List.range N_PROCESSES).all fun i ↦ (k.processes i).all fun p ↦
        ¬ (k.pcb p).state.IsWaiting) = true := by
    decide +kernel
  obtain ⟨k, hk, hprop⟩ := (Option.any_eq_true _ _).mp hrun
  obtain ⟨hcur, hall⟩ := of_decide_eq_true hprop
  obtain ⟨a, ha⟩ := ((reachable_boot _ _).runAll hk).sound
  have hbound : ∀ {i p}, k.processes i = some p → i < N_PROCESSES := by
    intro i p hi
    rw [ha.sim.globals] at hi
    exact (ha.inv.table.slot hi).1.trans_le ha.inv.table.bound
  have hawake : ∀ p, k.Known p → ¬ (k.pcb p).state.IsWaiting := by
    rintro p ⟨i, hi⟩
    have hslot := List.all_eq_true.mp hall i (List.mem_range.mpr (hbound hi))
    rw [hi, Option.all_some] at hslot
    exact of_decide_eq_true hslot
  refine ⟨k, hk, fun _ ↦ rfl, fun p hp hs ↦ hawake p hp ?_, fun p hp hs ↦ hawake p hp ?_,
    ⟨1, hcur⟩, hbound⟩
  · rw [hs]
    trivial
  · rw [hs]
    trivial

/-- The first process tries to receive, is interrupted within its slice, blocks, and the
second process runs. -/
theorem noLostWakeup_blocked : let _ := someImage
    ∃ k c, pairStart = some k ∧ ipcMachine.run BlocksUndisturbed [.act .receive, .act .proceed,
      .interrupt, .act .proceed, .act .proceed] ⟨k, fun _ ↦ .user⟩ = some c ∧
      (c.shared.pcb (.page 0)).state = .waitingToReceiveMessage ∧ NoLostWakeup c := by
  intro _
  obtain ⟨k, hk, hstart⟩ := pairStart_spec
  have hrun : pairStart.all (fun k ↦ (ipcMachine.run BlocksUndisturbed [.act .receive,
      .act .proceed, .interrupt, .act .proceed, .act .proceed] ⟨k, fun _ ↦ .user⟩).any fun c ↦
        (c.shared.pcb (.page 0)).state = .waitingToReceiveMessage) = true := by
    decide +kernel
  rw [hk, Option.all_some] at hrun
  obtain ⟨c, hc, hstate⟩ := (Option.any_eq_true _ _).mp hrun
  exact ⟨k, c, hk, hc, of_decide_eq_true hstate,
    noLostWakeup_of_undisturbed hstart (Machine.reachable_of_run hc)⟩

/-- The first process finds its ring empty and its slice ends; the second process sends it
a message; when the first process continues, it goes to sleep. -/
def lostWakeup : List (Event IpcChoice) :=
  [.act .receive, .act .proceed] ++ List.replicate 10 .interrupt ++
    [.act (.send 1 [104]), .act .proceed] ++ List.replicate 10 .interrupt ++
    [.act .proceed, .act .proceed]

/-- A process sleeps although there is a message in its ring. -/
theorem noLostWakeup_false :
    ¬ ∀ (image : KernelImage) (c c' : IpcConfig), IpcStart c →
      Relation.ReflTransGen ((@ipcMachine image).Step fun _ _ ↦ True) c c' → NoLostWakeup c' := by
  intro hclaim
  let _ := someImage
  obtain ⟨k, hk, hstart⟩ := pairStart_spec
  have hrun : pairStart.all (fun k ↦ (ipcMachine.run (fun _ _ ↦ True) lostWakeup
      ⟨k, fun _ ↦ .user⟩).any fun c ↦ c.shared.processes 1 = some (.page 0) ∧
        .page 0 ≠ c.shared.currentProcess ∧
        (c.shared.pcb (.page 0)).state = .waitingToReceiveMessage ∧
        ¬ c.shared.RingEmpty (.page 0)) = true := by
    decide +kernel
  rw [hk, Option.all_some] at hrun
  obtain ⟨c, hc, hprop⟩ := (Option.any_eq_true _ _).mp hrun
  obtain ⟨hknown, hne, hstate, hring⟩ := of_decide_eq_true hprop
  exact hring ((hclaim someImage _ c hstart (Machine.reachable_of_run hc) (.page 0) ⟨1, hknown⟩
    hne).1 hstate)

end DemosOS
