import DemosOS.Ipc.Blocking

/-!
# Interleaved senders

`push_message` as its steps: the full test, the write of the slot, the update of `head`
and the wake-up, with timer ticks in between.  The new value of `head` is computed before
the full test, from the `head` of that moment.

If a second sender passes its full test for a destination while a first one is between its
own full test and its update of `head`, both publish the same slot and a message is lost.
Otherwise every message whose `send_message` has returned is in a slot of its own until it is
popped, once.
-/

namespace DemosOS

open Lib

/-! ## The steps -/

/-- A message, identified by the call of `send_message` it comes from. -/
structure Sent where
  id : Nat
  body : List UInt8
deriving DecidableEq

/-- Where a process is in the code of message passing. -/
inductive PushPoint
  | user
  | /-- Before the full test. -/
    test (destination : PcbPtr) (message : Sent)
  | /-- Before the write of the slot. -/
    write (destination : PcbPtr) (message : Sent) (nextHead : Nat)
  | /-- Before the update of `head`. -/
    publish (destination : PcbPtr) (message : Sent) (nextHead : Nat)
  | /-- Before the wake-up of the destination. -/
    wake (destination : PcbPtr) (message : Sent)
  | sendBlock (destination : PcbPtr) (message : Sent)
  | sendSchedule (destination : PcbPtr) (message : Sent)
  | receiving
  | receiveBlock
  | receiveSchedule
deriving DecidableEq

namespace PushPoint

/-- The message of a `send_message` that has not updated `head` yet. -/
def pending : PushPoint → Option (PcbPtr × Sent)
  | test d m | write d m _ | publish d m _ | sendBlock d m | sendSchedule d m => some (d, m)
  | _ => none

/-- The destination of a push between its full test and its update of `head`. -/
def inside : PushPoint → Option PcbPtr
  | write d _ _ | publish d _ _ => some d
  | _ => none

end PushPoint

/-- The kernel, with a record of the messages: the next identifier, the message last written
to each slot, the messages whose `send_message` has returned 0 and the messages popped, for
each destination. -/
structure Senders where
  kernel : Kernel Pointers
  fresh : Nat
  tag : PcbPtr → Nat → Nat
  returned : PcbPtr → List Sent
  popped : PcbPtr → List Sent

namespace Senders

/-- Nothing has been sent yet. -/
def start (k : Kernel Pointers) : Senders := ⟨k, 0, fun _ _ ↦ 0, fun _ ↦ [], fun _ ↦ []⟩

variable [KernelImage]

/-- The message in a slot: who wrote it, and what its body is now. -/
def cell (s : Senders) (d : PcbPtr) (i : Nat) : Sent := ⟨s.tag d i, (s.kernel.readSlot d i).body⟩

/-- The messages in the ring. -/
def queued (s : Senders) (d : PcbPtr) : List Sent :=
  Ring.contents (MAX_MESSAGES_PER_PROCESS + 1) (s.kernel.ring d).head
    (s.kernel.ring d).tail (s.cell d)

/-- Every message whose `send_message` has returned is in exactly one slot of the ring, or
has been popped, but not both and not twice; and its body is what was sent. -/
def NoMessageLost (s : Senders) : Prop :=
  ∀ d, ∀ m ∈ s.returned d, m ∈ s.popped d ++ s.queued d ∧
    ((s.popped d ++ s.queued d).map Sent.id).count m.id = 1

/-- The write of the slot at `head`. -/
def writeHead (s : Senders) (d : PcbPtr) (m : Sent) : Senders :=
  let head := (s.kernel.ring d).head
  { s with
    kernel := s.kernel.writeSlot d head (s.kernel.composeMessage d m.body)
    tag := Function.update s.tag d (Function.update (s.tag d) head m.id) }

/-- The next step of the running process.  Init makes no system call. -/
def act (choice : IpcChoice) (s : Senders) (point : PushPoint) : Option (Senders × PushPoint) :=
  let k := s.kernel
  match choice, point with
  | .send pid body, .user =>
      if k.currentProcess = .initProcess then none
      else match k.searchProcess pid with
        | none => some (s, .user)
        | some d => some ({ s with fresh := s.fresh + 1 }, .test d ⟨s.fresh, body⟩)
  | .receive, .user => if k.currentProcess = .initProcess then none else some (s, .receiving)
  | .proceed, .test d m =>
      let nextHead := nextIndex (k.ring d).head
      if nextHead = (k.ring d).tail then some (s, .sendBlock d m) else some (s, .write d m nextHead)
  | .proceed, .write d m nextHead => some (s.writeHead d m, .publish d m nextHead)
  | .proceed, .publish d m nextHead => some ({ s with kernel := k.setHead d nextHead }, .wake d m)
  | .proceed, .wake d m => (k.wakeReceiver d).map fun k ↦
      ({ s with
          kernel := k
          returned := Function.update s.returned d (s.returned d ++ [m]) }, .user)
  | .proceed, .sendBlock d m =>
      let k := k.mapGlobals fun g ↦ g.setState g.currentProcess .waitingToSendMessage
      some ({ s with kernel := k }, .sendSchedule d m)
  | .proceed, .sendSchedule d m => k.schedule.map fun k ↦ ({ s with kernel := k }, .test d m)
  | .proceed, .receiving => k.attemptReceive.map fun (body, k') ↦
      match body with
      | none => ({ s with kernel := k' }, .receiveBlock)
      | some body =>
          let p := k.currentProcess
          ({ s with
            kernel := k'
            popped := Function.update s.popped p
              (s.popped p ++ [⟨s.tag p (k.ring p).tail, body⟩]) }, .user)
  | .proceed, .receiveBlock =>
      let k := k.mapGlobals fun g ↦ g.setState g.currentProcess .waitingToReceiveMessage
      some ({ s with kernel := k }, .receiveSchedule)
  | .proceed, .receiveSchedule => k.schedule.map fun k ↦ ({ s with kernel := k }, .receiving)
  | _, _ => none

/-- Processes that exchange messages, with timer ticks between any two steps. -/
def machine : Machine Senders PcbPtr PushPoint IpcChoice where
  running s := s.kernel.currentProcess
  act := act
  interrupt s := s.kernel.handleTimerTick.map fun k ↦ { s with kernel := k }

end Senders

abbrev SendersConfig := Config Senders PcbPtr PushPoint

/-! ## The rings -/

/-- All rings are empty. -/
def Kernel.RingsEmpty (k : Kernel Pointers) : Prop :=
  ∀ d, k.RingEmpty d ∧ (k.ring d).tail ≤ MAX_MESSAGES_PER_PROCESS

namespace Kernel

variable {k k' : Kernel Pointers}

theorem ring_of_frozen (h : k'.toGlobals.frozen = k.toGlobals.frozen) (d : PcbPtr) :
    k'.ring d = k.ring d :=
  Globals.field_of_frozen h PCB.messagesBuffer (fun _ ↦ rfl) d

theorem ring_setHead_of_ne {d d' : PcbPtr} (h : d' ≠ d) (head : Nat) :
    (k.setHead d head).ring d' = k.ring d' := by
  simp [setHead, Kernel.ring, h]

theorem ring_setTail_of_ne {d d' : PcbPtr} (h : d' ≠ d) (tail : Nat) :
    (k.setTail d tail).ring d' = k.ring d' := by
  simp [setTail, Kernel.ring, h]

variable [KernelImage]

/-- The bodies in the slots are determined by the ring and what lies behind the array. -/
theorem readSlot_body (k : Kernel Pointers) (d : PcbPtr) (i : Nat) : (k.readSlot d i).body =
    if i < MAX_MESSAGES_PER_PROCESS then ((k.ring d).buffer i).body else (k.pcb d).pastEnd := by
  unfold readSlot
  split_ifs <;> rfl

theorem readSlot_body_congr {d : PcbPtr} (hring : (k'.ring d).buffer = (k.ring d).buffer)
    (hpast : (k'.pcb d).pastEnd = (k.pcb d).pastEnd) (i : Nat) :
    (k'.readSlot d i).body = (k.readSlot d i).body := by
  rw [readSlot_body, readSlot_body, hring, hpast]

theorem readSlot_body_of_frozen (h : k'.toGlobals.frozen = k.toGlobals.frozen) (d : PcbPtr)
    (i : Nat) :
    (k'.readSlot d i).body = (k.readSlot d i).body :=
  readSlot_body_congr (congrArg _ (ring_of_frozen h d))
    (Globals.field_of_frozen h PCB.pastEnd (fun _ ↦ rfl) d) i

theorem readSlot_body_setHead (d : PcbPtr) (head : Nat) (d' : PcbPtr) (i : Nat) :
    ((k.setHead d head).readSlot d' i).body = (k.readSlot d' i).body := by
  rw [readSlot_body, readSlot_body]
  by_cases h : d' = d
  · subst h
    simp [setHead, Kernel.ring]
  · simp [setHead, Kernel.ring, h]

theorem readSlot_body_setTail (d : PcbPtr) (tail : Nat) (d' : PcbPtr) (i : Nat) :
    ((k.setTail d tail).readSlot d' i).body = (k.readSlot d' i).body := by
  rw [readSlot_body, readSlot_body]
  by_cases h : d' = d
  · subst h
    simp [setTail, Kernel.ring]
  · simp [setTail, Kernel.ring, h]

/-- The write of a slot moves no index. -/
theorem ring_writeSlot (d : PcbPtr) (i : Nat) (message : Message) (d' : PcbPtr) :
    ((k.writeSlot d i message).ring d').head = (k.ring d').head ∧
      ((k.writeSlot d i message).ring d').tail = (k.ring d').tail := by
  unfold writeSlot
  by_cases h : d' = d
  · subst h
    split_ifs <;> simp [Kernel.ring]
  · split_ifs <;> simp [Kernel.ring, h]

theorem pcb_writeSlot_of_ne {d d' : PcbPtr} (h : d' ≠ d) (i : Nat) (message : Message) :
    (k.writeSlot d i message).pcb d' = k.pcb d' := by
  unfold writeSlot
  split_ifs <;> simp [h]

/-- The write of a slot changes the body in that slot only. -/
theorem readSlot_body_writeSlot (d : PcbPtr) {i j : Nat} (hi : i < MAX_MESSAGES_PER_PROCESS + 1)
    (hj : j < MAX_MESSAGES_PER_PROCESS + 1) (message : Message) :
    ((k.writeSlot d i message).readSlot d j).body =
      if j = i then message.body else (k.readSlot d j).body := by
  rw [readSlot_body, readSlot_body]
  by_cases hlt : i < MAX_MESSAGES_PER_PROCESS
  · rw [writeSlot_of_lt hlt]
    by_cases hji : j = i
    · subst hji
      simp [hlt, Kernel.ring]
    · simp [hji, Kernel.ring]
  · obtain rfl : i = MAX_MESSAGES_PER_PROCESS := by omega
    by_cases hji : j = MAX_MESSAGES_PER_PROCESS
    · subst hji
      simp [writeSlot]
    · have hjlt : j < MAX_MESSAGES_PER_PROCESS := by omega
      simp [writeSlot, hji, hjlt, Kernel.ring]

omit [KernelImage] in
theorem frozen_wakeSenders {slots : List Nat} (h : slots.foldlM wakeSender k = some k') :
    k'.toGlobals.frozen = k.toGlobals.frozen := by
  refine Lib.foldlM_invariant (I := fun k₁ : Kernel Pointers ↦
    k₁.toGlobals.frozen = k.toGlobals.frozen)
    (fun {k₁ i k₂} hfrozen hround ↦ Eq.trans ?_ hfrozen) h rfl
  unfold wakeSender at hround
  split at hround
  · obtain rfl := Option.some.inj hround
    rfl
  · exact (steady_wakeIf hround).frozen

/-- A pop attempt that returns, as an access to the ring and wake-ups. -/
theorem attemptReceive_ring {r : Option (List UInt8)} (h : k.attemptReceive = some (r, k')) :
    (r = none ∧ k' = k) ∨
      (¬ k.RingEmpty k.currentProcess ∧
        r = some (k.readSlot k.currentProcess (k.ring k.currentProcess).tail).body ∧
        k'.toGlobals.frozen = (k.setTail k.currentProcess
          (nextIndex (k.ring k.currentProcess).tail)).toGlobals.frozen) := by
  unfold attemptReceive popMessage at h
  split_ifs at h with hempty
  · obtain ⟨rfl, rfl⟩ := Prod.mk.inj (Option.some.inj h)
    exact .inl ⟨rfl, rfl⟩
  · obtain ⟨k₁, hk₁, h⟩ := Option.bind_eq_some_iff.mp h
    obtain ⟨rfl, rfl⟩ := Prod.mk.inj (Option.some.inj h)
    exact .inr ⟨hempty, rfl, frozen_wakeSenders hk₁⟩

end Kernel

namespace Senders

variable [KernelImage] {s s' : Senders}

/-- The messages that are or have been in the ring of `d`. -/
def entered (s : Senders) (d : PcbPtr) : List Sent := s.popped d ++ s.queued d

/-- The rings are the same. -/
structure SameRings (s s' : Senders) : Prop where
  ring : ∀ d, s'.kernel.ring d = s.kernel.ring d
  cell : ∀ d, s'.cell d = s.cell d
  popped : s'.popped = s.popped

theorem SameRings.queued (h : SameRings s s') (d : PcbPtr) : s'.queued d = s.queued d := by
  rw [Senders.queued, Senders.queued, h.ring, h.cell]

theorem SameRings.entered (h : SameRings s s') (d : PcbPtr) : s'.entered d = s.entered d := by
  rw [Senders.entered, Senders.entered, h.queued, h.popped]

/-- A step that keeps all rings, such as one of the scheduler. -/
theorem sameRings_of_frozen {k : Kernel Pointers}
    (h : k.toGlobals.frozen = s.kernel.toGlobals.frozen) (fresh : Nat)
    (returned : PcbPtr → List Sent) :
    SameRings s { s with kernel := k, fresh := fresh, returned := returned } where
  ring := Kernel.ring_of_frozen h
  cell d := by
    funext i
    exact congrArg (Sent.mk _) (Kernel.readSlot_body_of_frozen h d i)
  popped := rfl

end Senders

/-! ## The invariant -/

/-- After a step of `p`, a process is `p` at its new point or another one at its old point. -/
theorem update_cases (point : PcbPtr → PushPoint) (p q : PcbPtr) (l : PushPoint) :
    (q = p ∧ Function.update point p l q = l) ∨
      (q ≠ p ∧ Function.update point p l q = point q) := by
  by_cases hq : q = p
  · exact .inl ⟨hq, by rw [hq, Function.update_self]⟩
  · exact .inr ⟨hq, Function.update_of_ne hq ..⟩

/-- Every call of `send_message` has its own identifier, and its message enters a ring at most
once. -/
structure Identified [KernelImage] (c : SendersConfig) : Prop where
  nodup : ∀ d, ((c.shared.entered d).map Sent.id).Nodup
  returned : ∀ d, ∀ m ∈ c.shared.returned d, m ∈ c.shared.entered d
  waking : ∀ p d m, c.point p = .wake d m → m ∈ c.shared.entered d
  old : ∀ d, ∀ m ∈ c.shared.entered d, m.id < c.shared.fresh
  /-- A pending message has not entered a ring. -/
  pending : ∀ p d m, (c.point p).pending = some (d, m) →
    m.id < c.shared.fresh ∧ ∀ d', ∀ x ∈ c.shared.entered d', x.id ≠ m.id
  distinct : ∀ p q d m d' m', (c.point p).pending = some (d, m) →
    (c.point q).pending = some (d', m') → m.id = m'.id → p = q

namespace Identified

variable [KernelImage] {c : SendersConfig} {s : Senders} {p : PcbPtr} {l : PushPoint}

theorem noMessageLost (h : Identified c) : c.shared.NoMessageLost := by
  intro d m hm
  have hin := h.returned d m hm
  exact ⟨hin, List.count_eq_one_of_mem (h.nodup d) (List.mem_map_of_mem hin)⟩

/-- A step in which no message enters a ring.  Its process may start to send a message with
a fresh identifier. -/
theorem keep (h : Identified c) (hentered : ∀ d, s.entered d = c.shared.entered d)
    (hreturned : ∀ d, ∀ m ∈ s.returned d, m ∈ c.shared.returned d ∨ c.point p = .wake d m)
    (hfresh : c.shared.fresh ≤ s.fresh)
    (hpending : ∀ d m, l.pending = some (d, m) → (c.point p).pending = some (d, m) ∨
      (m.id = c.shared.fresh ∧ c.shared.fresh < s.fresh))
    (hwaking : ∀ d m, l = .wake d m → c.point p = l) :
    Identified ⟨s, Function.update c.point p l⟩ where
  nodup d := by
    rw [hentered]
    exact h.nodup d
  returned d m hm := by
    rw [hentered]
    rcases hreturned d m hm with hm | hm
    · exact h.returned d m hm
    · exact h.waking p d m hm
  waking q d m hq := by
    rw [hentered]
    rcases update_cases c.point p q l with ⟨rfl, hl⟩ | ⟨-, hl⟩
    · have hm := hl.symm.trans hq
      exact h.waking q d m ((hwaking d m hm).trans hm)
    · exact h.waking q d m (hl.symm.trans hq)
  old d m hm := by
    rw [hentered] at hm
    exact (h.old d m hm).trans_le hfresh
  pending q d m hq := by
    simp only [hentered] at hq ⊢
    have hold : (c.point q).pending = some (d, m) → m.id < s.fresh ∧
        ∀ d', ∀ x ∈ c.shared.entered d', x.id ≠ m.id := fun hq ↦
      ⟨(h.pending q d m hq).1.trans_le hfresh, (h.pending q d m hq).2⟩
    rcases update_cases c.point p q l with ⟨rfl, hl⟩ | ⟨-, hl⟩
    · rcases hpending d m (by rwa [hl] at hq) with hq | ⟨hid, hlt⟩
      · exact hold hq
      · exact ⟨by omega, fun d' x hx ↦ (hid ▸ h.old d' x hx).ne⟩
    · exact hold (by rwa [hl] at hq)
  distinct q r d m d' m' hq hr hid := by
    dsimp only at hq hr
    have hnew : ∀ {x d m d' m'}, l.pending = some (d, m) → (c.point x).pending = some (d', m') →
        m.id = m'.id → p = x := by
      intro x d m d' m' hp hx hid
      rcases hpending d m hp with hp | ⟨hid', -⟩
      · exact h.distinct p x d m d' m' hp hx hid
      · have hlt := (h.pending x d' m' hx).1
        omega
    rcases update_cases c.point p q l with ⟨hqp, hl⟩ | ⟨-, hl⟩ <;>
      rcases update_cases c.point p r l with ⟨hrp, hl'⟩ | ⟨-, hl'⟩ <;>
      rw [hl] at hq <;> rw [hl'] at hr
    · exact hqp.trans hrp.symm
    · exact hqp.trans (hnew hq hr hid)
    · exact (hrp.trans (hnew hr hq hid.symm)).symm
    · exact h.distinct q r d m d' m' hq hr hid

/-- A step in which the pending message of its process enters the ring. -/
theorem enter (h : Identified c) {d : PcbPtr} {m : Sent}
    (hentered : s.entered d = c.shared.entered d ++ [m])
    (hother : ∀ d', d' ≠ d → s.entered d' = c.shared.entered d')
    (hreturned : s.returned = c.shared.returned) (hfresh : s.fresh = c.shared.fresh)
    (hp : (c.point p).pending = some (d, m)) :
    Identified ⟨s, Function.update c.point p (.wake d m)⟩ := by
  obtain ⟨hlt, hout⟩ := h.pending p d m hp
  have hmem : ∀ d' x, x ∈ s.entered d' ↔ x ∈ c.shared.entered d' ∨ (d' = d ∧ x = m) := by
    intro d' x
    by_cases hd : d' = d
    · subst hd
      simp [hentered]
    · simp [hother d' hd, hd]
  refine ⟨fun d' ↦ ?_, fun d' x hx ↦ ?_, fun q d' x hq ↦ ?_, fun d' x hx ↦ ?_, fun q d' x hq ↦ ?_,
    fun q r d₁ x d₂ y hq hr hid ↦ ?_⟩ <;> dsimp only at *
  · by_cases hd : d' = d
    · subst hd
      rw [hentered, List.map_append, List.nodup_append]
      refine ⟨h.nodup d', by simp, fun i hi j hj ↦ ?_⟩
      obtain ⟨x, hx, rfl⟩ := List.mem_map.mp hi
      obtain rfl : j = m.id := by simpa using hj
      exact hout d' x hx
    · rw [hother d' hd]
      exact h.nodup d'
  · rw [hreturned] at hx
    exact (hmem d' x).mpr (.inl (h.returned d' x hx))
  · rcases update_cases c.point p q (.wake d m) with ⟨rfl, hl⟩ | ⟨-, hl⟩
    · obtain ⟨rfl, rfl⟩ : d = d' ∧ m = x := by simpa using hl.symm.trans hq
      exact (hmem d m).mpr (.inr ⟨rfl, rfl⟩)
    · exact (hmem d' x).mpr (.inl (h.waking q d' x (hl.symm.trans hq)))
  · rw [hfresh]
    rcases (hmem d' x).mp hx with hx | ⟨-, rfl⟩
    · exact h.old d' x hx
    · exact hlt
  · rcases update_cases c.point p q (.wake d m) with ⟨rfl, hl⟩ | ⟨hqp, hl⟩ <;> rw [hl] at hq
    · simp [PushPoint.pending] at hq
    · obtain ⟨hlt', hout'⟩ := h.pending q d' x hq
      refine ⟨by omega, fun d'' y hy ↦ ?_⟩
      rcases (hmem d'' y).mp hy with hy | ⟨-, rfl⟩
      · exact hout' d'' y hy
      · exact fun hid ↦ hqp (h.distinct q p d' x d y hq hp hid.symm)
  · rcases update_cases c.point p q (.wake d m) with ⟨hqp, hl⟩ | ⟨-, hl⟩ <;>
      rcases update_cases c.point p r (.wake d m) with ⟨hrp, hl'⟩ | ⟨-, hl'⟩ <;>
      rw [hl] at hq <;> rw [hl'] at hr
    · exact hqp.trans hrp.symm
    · simp [PushPoint.pending] at hq
    · simp [PushPoint.pending] at hr
    · exact h.distinct q r d₁ x d₂ y hq hr hid

end Identified

/-- The rings hold what is queued, and at most one push to a destination is between its full
test and its update of `head`; what that push has found out and written still holds. -/
structure Exclusive [KernelImage] (c : SendersConfig) : Prop where
  ring : ∀ d, Ring.Represents (MAX_MESSAGES_PER_PROCESS + 1) (c.shared.kernel.ring d).head
    (c.shared.kernel.ring d).tail (c.shared.cell d) (c.shared.queued d)
  alone : ∀ p q d, (c.point p).inside = some d → (c.point q).inside = some d → p = q
  write : ∀ p d m nextHead, c.point p = .write d m nextHead →
    nextHead = nextIndex (c.shared.kernel.ring d).head ∧ ¬ c.shared.kernel.RingFull d
  publish : ∀ p d m nextHead, c.point p = .publish d m nextHead →
    nextHead = nextIndex (c.shared.kernel.ring d).head ∧ ¬ c.shared.kernel.RingFull d ∧
      c.shared.cell d (c.shared.kernel.ring d).head = m

namespace Exclusive

variable [KernelImage] {c : SendersConfig} {s : Senders} {p : PcbPtr} {l : PushPoint}

/-- A step of `p` after which it is not inside a push to a destination unless nobody else is. -/
theorem alone_update (h : Exclusive c)
    (hl : ∀ d, l.inside = some d → ∀ q, q ≠ p → (c.point q).inside ≠ some d) (q r d : PcbPtr)
    (hq : (Function.update c.point p l q).inside = some d)
    (hr : (Function.update c.point p l r).inside = some d) : q = r := by
  rcases update_cases c.point p q l with ⟨hqp, hl₁⟩ | ⟨hqp, hl₁⟩ <;>
    rcases update_cases c.point p r l with ⟨hrp, hl₂⟩ | ⟨hrp, hl₂⟩ <;>
    rw [hl₁] at hq <;> rw [hl₂] at hr
  · exact hqp.trans hrp.symm
  · exact absurd hr (hl d hq r hrp)
  · exact absurd hq (hl d hr q hqp)
  · exact h.alone q r d hq hr

/-- A step that keeps the rings. -/
theorem keep (h : Exclusive c) (hsame : c.shared.SameRings s)
    (hinside : ∀ d, l.inside = some d → ∀ q, q ≠ p → (c.point q).inside ≠ some d)
    (hwrite : ∀ d m nextHead, l = .write d m nextHead →
      nextHead = nextIndex (c.shared.kernel.ring d).head ∧ ¬ c.shared.kernel.RingFull d)
    (hpublish : ∀ d m nextHead, l = .publish d m nextHead → c.point p = l) :
    Exclusive ⟨s, Function.update c.point p l⟩ where
  ring d := by
    rw [hsame.ring, hsame.cell, hsame.queued]
    exact h.ring d
  alone := h.alone_update hinside
  write q d m nextHead hq := by
    rw [hsame.ring, Kernel.ringFull_congr (hsame.ring d)]
    rcases update_cases c.point p q l with ⟨rfl, hl⟩ | ⟨-, hl⟩
    · exact hwrite d m nextHead (hl.symm.trans hq)
    · exact h.write q d m nextHead (hl.symm.trans hq)
  publish q d m nextHead hq := by
    rw [hsame.ring, Kernel.ringFull_congr (hsame.ring d), hsame.cell]
    rcases update_cases c.point p q l with ⟨rfl, hl⟩ | ⟨-, hl⟩
    · have hm := hl.symm.trans hq
      exact h.publish q d m nextHead ((hpublish d m nextHead hm).trans hm)
    · exact h.publish q d m nextHead (hl.symm.trans hq)

/-- A step on the ring of `d`, in which nobody but `p` is inside a push. -/
theorem change (h : Exclusive c) {d : PcbPtr} (hinside : (c.point p).inside = some d)
    {queued : List Sent} (hring : Ring.Represents (MAX_MESSAGES_PER_PROCESS + 1)
      (s.kernel.ring d).head (s.kernel.ring d).tail (s.cell d) queued)
    (hother : ∀ d', d' ≠ d →
      s.kernel.ring d' = c.shared.kernel.ring d' ∧ s.cell d' = c.shared.cell d')
    (hl : ∀ d', l.inside = some d' → d' = d)
    (hwrite : ∀ m nextHead, l ≠ .write d m nextHead)
    (hpublish : ∀ m nextHead, l = .publish d m nextHead →
      nextHead = nextIndex (s.kernel.ring d).head ∧ ¬ s.kernel.RingFull d ∧
        s.cell d (s.kernel.ring d).head = m) :
    Exclusive ⟨s, Function.update c.point p l⟩ := by
  have halone : ∀ q, q ≠ p → (c.point q).inside ≠ some d := fun q hqp hq ↦
    hqp (h.alone q p d hq hinside)
  have hupdate := h.alone_update (p := p) (l := l) fun d' hd q hq ↦ by
    rw [hl d' hd]
    exact halone q hq
  refine ⟨fun d' ↦ ?_, hupdate, fun q d' m nextHead hq ↦ ?_, fun q d' m nextHead hq ↦ ?_⟩ <;>
    dsimp only at *
  · by_cases hd : d' = d
    · subst hd
      rw [Senders.queued, hring.contents_eq]
      exact hring
    · rw [Senders.queued, (hother d' hd).1, (hother d' hd).2]
      exact h.ring d'
  · rcases update_cases c.point p q l with ⟨rfl, heq⟩ | ⟨hqp, heq⟩
    · have hlw := heq.symm.trans hq
      obtain rfl := hl d' (by rw [hlw]; rfl)
      exact absurd hlw (hwrite m nextHead)
    · have hq := heq.symm.trans hq
      have hd : d' ≠ d := fun hd ↦ halone q hqp (by rw [hq, ← hd]; rfl)
      rw [(hother d' hd).1, Kernel.ringFull_congr (hother d' hd).1]
      exact h.write q d' m nextHead hq
  · rcases update_cases c.point p q l with ⟨rfl, heq⟩ | ⟨hqp, heq⟩
    · have hlp := heq.symm.trans hq
      obtain rfl := hl d' (by rw [hlp]; rfl)
      exact hpublish m nextHead hlp
    · have hq := heq.symm.trans hq
      have hd : d' ≠ d := fun hd ↦ halone q hqp (by rw [hq, ← hd]; rfl)
      rw [(hother d' hd).1, Kernel.ringFull_congr (hother d' hd).1, (hother d' hd).2]
      exact h.publish q d' m nextHead hq

/-- A pop: the tail of the ring of `p` advances, which leaves room for whoever is pushing. -/
theorem advance (h : Exclusive c) {x : Sent} {rest : List Sent}
    (hqueued : c.shared.queued p = x :: rest)
    (hring : s.kernel.ring p = ⟨(c.shared.kernel.ring p).head,
      nextIndex (c.shared.kernel.ring p).tail, (c.shared.kernel.ring p).buffer⟩)
    (hother : ∀ d, d ≠ p → s.kernel.ring d = c.shared.kernel.ring d)
    (hcell : ∀ d, s.cell d = c.shared.cell d) (hl : l.inside = none) :
    s.queued p = rest ∧ Exclusive ⟨s, Function.update c.point p l⟩ := by
  have hrep := h.ring p
  rw [hqueued] at hrep
  have hrest := hrep.advance_tail.2
  rw [← nextIndex_eq hrep.tail_lt] at hrest
  have hrest' : Ring.Represents (MAX_MESSAGES_PER_PROCESS + 1) (s.kernel.ring p).head
      (s.kernel.ring p).tail (s.cell p) rest := by
    rw [hring, hcell]
    exact hrest
  have hhead : ∀ d, (s.kernel.ring d).head = (c.shared.kernel.ring d).head := fun d ↦ by
    by_cases hd : d = p
    · rw [hd, hring]
    · rw [hother d hd]
  have hroom : ∀ d, ¬ c.shared.kernel.RingFull d → ¬ s.kernel.RingFull d := fun d hroom ↦ by
    by_cases hd : d = p
    · subst hd
      rw [Kernel.RingFull, nextIndex_eq hrest'.head_lt, hrest'.full_iff]
      have hlen := hrep.length_lt
      rw [List.length_cons] at hlen
      omega
    · rwa [Kernel.ringFull_congr (hother d hd)]
  refine ⟨hrest'.contents_eq, fun d ↦ ?_, h.alone_update (by simp [hl]), fun q d m nextHead hq ↦ ?_,
    fun q d m nextHead hq ↦ ?_⟩ <;> dsimp only at *
  · by_cases hd : d = p
    · subst hd
      rw [Senders.queued, hrest'.contents_eq]
      exact hrest'
    · rw [Senders.queued, hother d hd, hcell]
      exact h.ring d
  · rw [hhead]
    rcases update_cases c.point p q l with ⟨rfl, heq⟩ | ⟨-, heq⟩
    · rw [heq.symm.trans hq] at hl
      simp [PushPoint.inside] at hl
    · obtain ⟨hnext, hfull⟩ := h.write q d m nextHead (heq.symm.trans hq)
      exact ⟨hnext, hroom d hfull⟩
  · rw [hhead, hcell]
    rcases update_cases c.point p q l with ⟨rfl, heq⟩ | ⟨-, heq⟩
    · rw [heq.symm.trans hq] at hl
      simp [PushPoint.inside] at hl
    · obtain ⟨hnext, hfull, hwritten⟩ := h.publish q d m nextHead (heq.symm.trans hq)
      exact ⟨hnext, hroom d hfull, hwritten⟩

end Exclusive

/-- What holds between any two steps, if pushes to one destination do not overlap. -/
structure SendersInv [KernelImage] (c : SendersConfig) : Prop extends Identified c, Exclusive c

namespace SendersInv

variable [KernelImage] {c : SendersConfig} {p : PcbPtr}

theorem ofStart {k : Kernel Pointers} (h : k.RingsEmpty) :
    SendersInv ⟨.start k, fun _ ↦ .user⟩ := by
  have hrep : ∀ d, Ring.Represents (MAX_MESSAGES_PER_PROCESS + 1) (k.ring d).head (k.ring d).tail
      ((Senders.start k).cell d) [] := fun d ↦ by
    have hhead : (k.ring d).head = (k.ring d).tail := (h d).1
    rw [hhead]
    exact .nil (Nat.lt_succ_iff.mpr (h d).2)
  have hqueued : ∀ d, (Senders.start k).queued d = [] := fun d ↦ (hrep d).contents_eq
  have hentered : ∀ d, (Senders.start k).entered d = [] := fun d ↦ by
    rw [Senders.entered, hqueued]
    rfl
  refine ⟨⟨fun d ↦ ?_, fun d m hm ↦ ?_, by simp, fun d m hm ↦ ?_, by simp [PushPoint.pending],
    by simp [PushPoint.pending]⟩, ⟨fun d ↦ ?_, by simp [PushPoint.inside], by simp, by simp⟩⟩ <;>
    dsimp only at *
  · simp [hentered]
  · simp [Senders.start] at hm
  · simp [hentered] at hm
  · rw [hqueued]
    exact hrep d

/-- The write of the slot at `head`, which is not among the occupied ones. -/
theorem writeHead (h : SendersInv c) {d : PcbPtr} {m : Sent} {nextHead : Nat}
    (hpoint : c.point p = .write d m nextHead) :
    SendersInv ⟨c.shared.writeHead d m, Function.update c.point p (.publish d m nextHead)⟩ := by
  obtain ⟨hnext, hroom⟩ := h.write p d m nextHead hpoint
  have hindex := Kernel.ring_writeSlot (k := c.shared.kernel) d (c.shared.kernel.ring d).head
    (c.shared.kernel.composeMessage d m.body) d
  have hcell : ∀ i < MAX_MESSAGES_PER_PROCESS + 1, (c.shared.writeHead d m).cell d i =
      Function.update (c.shared.cell d) (c.shared.kernel.ring d).head m i := fun i hi ↦ by
    have hread := Kernel.readSlot_body_writeSlot (k := c.shared.kernel) d (h.ring d).head_lt hi
      (c.shared.kernel.composeMessage d m.body)
    by_cases hih : i = (c.shared.kernel.ring d).head
    · subst hih
      simp only [Senders.cell, Senders.writeHead, Function.update_self, hread, if_true]
      rfl
    · simp only [Senders.cell, Senders.writeHead, Function.update_self, Function.update_of_ne hih,
        hread, if_neg hih]
  have hother : ∀ d', d' ≠ d →
      (c.shared.writeHead d m).kernel.ring d' = c.shared.kernel.ring d' ∧
        (c.shared.writeHead d m).cell d' = c.shared.cell d' := fun d' hd ↦ by
    have hpcb := Kernel.pcb_writeSlot_of_ne (k := c.shared.kernel) hd
      (c.shared.kernel.ring d).head (c.shared.kernel.composeMessage d m.body)
    refine ⟨congrArg PCB.messagesBuffer hpcb, funext fun i ↦ ?_⟩
    have hbody := Kernel.readSlot_body_congr (congrArg (fun b ↦ b.messagesBuffer.buffer) hpcb)
      (congrArg PCB.pastEnd hpcb) i
    simp only [Senders.cell, Senders.writeHead, Function.update_of_ne hd, hbody]
  have hrep : Ring.Represents (MAX_MESSAGES_PER_PROCESS + 1)
      ((c.shared.writeHead d m).kernel.ring d).head ((c.shared.writeHead d m).kernel.ring d).tail
      ((c.shared.writeHead d m).cell d) (c.shared.queued d) := by
    have hwritten := ((h.ring d).write_head m).congr hcell
    rwa [← hindex.1, ← hindex.2] at hwritten
  have hentered : ∀ d', (c.shared.writeHead d m).entered d' = c.shared.entered d' := fun d' ↦ by
    refine congrArg (c.shared.popped d' ++ ·) ?_
    by_cases hd : d' = d
    · subst hd
      exact hrep.contents_eq
    · simp only [Senders.queued, (hother d' hd).1, (hother d' hd).2]
  refine ⟨h.toIdentified.keep hentered (fun _ _ hm ↦ .inl hm) le_rfl ?_ (by simp), ?_⟩
  · rw [hpoint]
    exact fun d' m' hm ↦ .inl hm
  · refine h.toExclusive.change (by rw [hpoint]; rfl) hrep hother (by simp [PushPoint.inside])
      (by simp) fun m' nextHead' hl ↦ ?_
    obtain ⟨rfl, rfl⟩ : m = m' ∧ nextHead = nextHead' := by simpa using hl
    rw [Kernel.RingFull, show ((c.shared.writeHead d m).kernel.ring d).head = _ from hindex.1,
      show ((c.shared.writeHead d m).kernel.ring d).tail = _ from hindex.2,
      hcell _ (h.ring d).head_lt, Function.update_self]
    exact ⟨hnext, hroom, rfl⟩

/-- The update of `head`, with which the message enters the ring. -/
theorem setHead (h : SendersInv c) {d : PcbPtr} {m : Sent} {nextHead : Nat}
    (hpoint : c.point p = .publish d m nextHead) :
    SendersInv ⟨{ c.shared with kernel := c.shared.kernel.setHead d nextHead },
      Function.update c.point p (.wake d m)⟩ := by
  obtain ⟨rfl, hroom, hwritten⟩ := h.publish p d m nextHead hpoint
  let s : Senders := { c.shared with
    kernel := c.shared.kernel.setHead d (nextIndex (c.shared.kernel.ring d).head) }
  have hcell : ∀ d', s.cell d' = c.shared.cell d' := fun d' ↦ funext fun i ↦
    congrArg (Sent.mk _) (Kernel.readSlot_body_setHead d _ d' i)
  have hother : ∀ d', d' ≠ d → s.kernel.ring d' = c.shared.kernel.ring d' := fun d' hd ↦
    Kernel.ring_setHead_of_ne hd _
  have hrep : Ring.Represents (MAX_MESSAGES_PER_PROCESS + 1) (s.kernel.ring d).head
      (s.kernel.ring d).tail (s.cell d) (c.shared.queued d ++ [m]) := by
    have hnext := nextIndex_eq (h.ring d).head_lt
    rw [Kernel.RingFull, hnext] at hroom
    have hadvanced := (h.ring d).advance_head hroom hwritten
    rw [← hnext, ← hcell] at hadvanced
    simpa [s] using hadvanced
  refine ⟨h.toIdentified.enter ?_ (fun d' hd ↦ ?_) rfl rfl (by rw [hpoint]; rfl), ?_⟩
  · rw [Senders.entered, Senders.queued, hrep.contents_eq, ← List.append_assoc]
    rfl
  · rw [Senders.entered, Senders.entered, Senders.queued, Senders.queued, hother d' hd, hcell]
  · exact h.toExclusive.change (by rw [hpoint]; rfl) hrep (fun d' hd ↦ ⟨hother d' hd, hcell d'⟩)
      (by simp [PushPoint.inside]) (by simp) (by simp)

/-- A successful pop by the running process. -/
theorem pop (h : SendersInv c) {k : Kernel Pointers} (hne : ¬ c.shared.kernel.RingEmpty p)
    (hk : k.toGlobals.frozen = (c.shared.kernel.setTail p
      (nextIndex (c.shared.kernel.ring p).tail)).toGlobals.frozen) :
    SendersInv ⟨{ c.shared with
      kernel := k
      popped := Function.update c.shared.popped p
        (c.shared.popped p ++ [c.shared.cell p (c.shared.kernel.ring p).tail]) },
      Function.update c.point p .user⟩ := by
  obtain ⟨x, rest, hqueued⟩ : ∃ x rest, c.shared.queued p = x :: rest := by
    cases hq : c.shared.queued p with
    | nil => exact absurd ((h.ring p).empty_iff.mpr hq) hne
    | cons x rest => exact ⟨x, rest, rfl⟩
  have hx : c.shared.cell p (c.shared.kernel.ring p).tail = x := by
    have hrep := h.ring p
    rw [hqueued] at hrep
    exact hrep.advance_tail.1
  rw [hx]
  let s : Senders := { c.shared with
    kernel := k
    popped := Function.update c.shared.popped p (c.shared.popped p ++ [x]) }
  have hcell : ∀ d, s.cell d = c.shared.cell d := fun d ↦ funext fun i ↦ congrArg (Sent.mk _)
    ((Kernel.readSlot_body_of_frozen hk d i).trans (Kernel.readSlot_body_setTail p _ d i))
  have hring : s.kernel.ring p = ⟨(c.shared.kernel.ring p).head,
      nextIndex (c.shared.kernel.ring p).tail, (c.shared.kernel.ring p).buffer⟩ :=
    (Kernel.ring_of_frozen hk p).trans (Kernel.ring_setTail _ _ _)
  have hother : ∀ d, d ≠ p → s.kernel.ring d = c.shared.kernel.ring d := fun d hd ↦
    (Kernel.ring_of_frozen hk d).trans (Kernel.ring_setTail_of_ne hd _)
  obtain ⟨hrest, hexclusive⟩ := h.toExclusive.advance (l := .user) hqueued hring hother hcell rfl
  have hentered : ∀ d, s.entered d = c.shared.entered d := fun d ↦ by
    by_cases hd : d = p
    · subst hd
      simp only [Senders.entered, hrest, hqueued, s, Function.update_self, List.append_assoc,
        List.singleton_append]
    · simp only [Senders.entered, Senders.queued, hother d hd, hcell, s, Function.update_of_ne hd]
  exact ⟨h.toIdentified.keep hentered (fun _ _ hm ↦ .inl hm) le_rfl (by simp [PushPoint.pending])
    (by simp), hexclusive⟩

/-- A step that keeps the rings, and in which its process starts no message and does not
enter a push. -/
theorem keep (h : SendersInv c) {k : Kernel Pointers} {l : PushPoint}
    (hk : k.toGlobals.frozen = c.shared.kernel.toGlobals.frozen)
    (hpending : ∀ d m, l.pending = some (d, m) → (c.point p).pending = some (d, m))
    (hl : l.inside = none) (hwake : ∀ d m, l ≠ .wake d m) :
    SendersInv ⟨{ c.shared with kernel := k }, Function.update c.point p l⟩ := by
  have hsame := c.shared.sameRings_of_frozen hk c.shared.fresh c.shared.returned
  refine ⟨h.toIdentified.keep hsame.entered (fun _ _ hm ↦ .inl hm) le_rfl
    (fun d m hm ↦ .inl (hpending d m hm)) fun d m hm ↦ absurd hm (hwake d m),
    h.toExclusive.keep hsame (by simp [hl]) (fun d m nextHead hm ↦ ?_) fun d m nextHead hm ↦ ?_⟩
  · rw [hm] at hl
    simp [PushPoint.inside] at hl
  · rw [hm] at hl
    simp [PushPoint.inside] at hl

/-- A scheduler step between two steps of the processes. -/
theorem scheduled (h : SendersInv c) {k : Kernel Pointers}
    (hk : k.toGlobals.frozen = c.shared.kernel.toGlobals.frozen) :
    SendersInv ⟨{ c.shared with kernel := k }, c.point⟩ := by
  have hsame := c.shared.sameRings_of_frozen hk c.shared.fresh c.shared.returned
  let p := c.shared.kernel.currentProcess
  have hidentified := h.toIdentified.keep (p := p) (l := c.point p) hsame.entered
    (fun _ _ hm ↦ .inl hm) le_rfl (fun d m hm ↦ .inl hm) fun _ _ _ ↦ rfl
  have hexclusive := h.toExclusive.keep (p := p) (l := c.point p) hsame
    (fun d hd q hq hdq ↦ hq (h.alone q p d hdq hd))
      (fun d m nextHead hm ↦ h.write p d m nextHead hm)
    fun _ _ _ _ ↦ rfl
  rw [Function.update_eq_self] at hidentified hexclusive
  exact ⟨hidentified, hexclusive⟩

/-- The call of `send_message`, which gives its message a fresh identifier. -/
theorem send (h : SendersInv c) (d : PcbPtr) (body : List UInt8) :
    SendersInv ⟨{ c.shared with fresh := c.shared.fresh + 1 },
      Function.update c.point p (.test d ⟨c.shared.fresh, body⟩)⟩ := by
  have hsame := c.shared.sameRings_of_frozen (k := c.shared.kernel) rfl (c.shared.fresh + 1)
    c.shared.returned
  refine ⟨h.toIdentified.keep hsame.entered (fun _ _ hm ↦ .inl hm) (Nat.le_succ _)
    (fun d' m hm ↦ ?_) (by simp),
    h.toExclusive.keep hsame (by simp [PushPoint.inside]) (by simp) (by simp)⟩
  obtain ⟨rfl, rfl⟩ : d = d' ∧ (⟨c.shared.fresh, body⟩ : Sent) = m := by
    simpa [PushPoint.pending] using hm
  exact .inr ⟨rfl, Nat.lt_succ_self _⟩

/-- A full test that is passed while nobody else is inside a push to the destination. -/
theorem test (h : SendersInv c) {d : PcbPtr} {m : Sent} (hpoint : c.point p = .test d m)
    (hroom : ¬ c.shared.kernel.RingFull d) (halone : ∀ q, q ≠ p → (c.point q).inside ≠ some d) :
    SendersInv ⟨c.shared,
      Function.update c.point p (.write d m (nextIndex (c.shared.kernel.ring d).head))⟩ := by
  have hsame := c.shared.sameRings_of_frozen (k := c.shared.kernel) rfl c.shared.fresh
    c.shared.returned
  refine ⟨h.toIdentified.keep hsame.entered (fun _ _ hm ↦ .inl hm) le_rfl ?_ (by simp),
    h.toExclusive.keep hsame (fun d' hd ↦ ?_) (fun d' m' nextHead hl ↦ ?_) (by simp)⟩
  · rw [hpoint]
    exact fun d' m' hm ↦ .inl hm
  · obtain rfl : d = d' := by simpa [PushPoint.inside] using hd
    exact halone
  · obtain ⟨rfl, -, rfl⟩ : d = d' ∧ m = m' ∧
        nextIndex (c.shared.kernel.ring d).head = nextHead := by
      simpa using hl
    exact ⟨rfl, hroom⟩

/-- The wake-up, with which `send_message` returns. -/
theorem wake (h : SendersInv c) {d : PcbPtr} {m : Sent} (hpoint : c.point p = .wake d m)
    {k : Kernel Pointers} (hk : k.toGlobals.frozen = c.shared.kernel.toGlobals.frozen) :
    SendersInv ⟨{ c.shared with
      kernel := k
      returned := Function.update c.shared.returned d (c.shared.returned d ++ [m]) },
      Function.update c.point p .user⟩ := by
  have hsame := c.shared.sameRings_of_frozen hk c.shared.fresh
    (Function.update c.shared.returned d (c.shared.returned d ++ [m]))
  refine ⟨h.toIdentified.keep hsame.entered (fun d' x hx ↦ ?_) le_rfl (by simp [PushPoint.pending])
    (by simp), h.toExclusive.keep hsame (by simp [PushPoint.inside]) (by simp) (by simp)⟩
  dsimp only at hx
  by_cases hd : d' = d
  · subst hd
    rw [Function.update_self] at hx
    rcases List.mem_append.mp hx with hx | hx
    · exact .inl hx
    · obtain rfl := List.mem_singleton.mp hx
      exact .inr hpoint
  · rw [Function.update_of_ne hd] at hx
    exact .inl hx

end SendersInv

/-! ## Runs -/

/-- No push passes its full test while another push to the same destination is between its
full test and its update of `head`. -/
def PushesApart : Event IpcChoice → SendersConfig → Prop
  | .act .proceed, c => ∀ d m, c.point c.shared.kernel.currentProcess = .test d m →
      ¬ c.shared.kernel.RingFull d →
      ∀ q, q ≠ c.shared.kernel.currentProcess → (c.point q).inside ≠ some d
  | _, _ => True

section

variable [KernelImage] {c c' : SendersConfig}

/-- What the running process does next keeps the invariant. -/
theorem SendersInv.act (h : SendersInv c) {choice : IpcChoice} {s : Senders} {l : PushPoint}
    (hapart : PushesApart (.act choice) c)
    (hact : Senders.act choice c.shared (c.point c.shared.kernel.currentProcess) = some (s, l)) :
    SendersInv ⟨s, Function.update c.point c.shared.kernel.currentProcess l⟩ := by
  generalize hpoint : c.point c.shared.kernel.currentProcess = point at hact
  unfold Senders.act at hact
  dsimp only at hact
  split at hact
  · split_ifs at hact
    split at hact
    · obtain ⟨rfl, rfl⟩ := Prod.mk.inj (Option.some.inj hact)
      exact h.keep rfl (by simp [PushPoint.pending]) rfl (by simp)
    · obtain ⟨rfl, rfl⟩ := Prod.mk.inj (Option.some.inj hact)
      exact h.send _ _
  · split_ifs at hact
    obtain ⟨rfl, rfl⟩ := Prod.mk.inj (Option.some.inj hact)
    exact h.keep rfl (by simp [PushPoint.pending]) rfl (by simp)
  · split_ifs at hact with hfull
    · obtain ⟨rfl, rfl⟩ := Prod.mk.inj (Option.some.inj hact)
      exact h.keep rfl (by rw [hpoint]; exact fun _ _ hm ↦ hm) rfl (by simp)
    · obtain ⟨rfl, rfl⟩ := Prod.mk.inj (Option.some.inj hact)
      exact h.test hpoint hfull (hapart _ _ hpoint hfull)
  · obtain ⟨rfl, rfl⟩ := Prod.mk.inj (Option.some.inj hact)
    exact h.writeHead hpoint
  · obtain ⟨rfl, rfl⟩ := Prod.mk.inj (Option.some.inj hact)
    exact h.setHead hpoint
  · obtain ⟨k, hk, hr⟩ := Option.map_eq_some_iff.mp hact
    obtain ⟨rfl, rfl⟩ := Prod.mk.inj hr
    exact h.wake hpoint (Kernel.steady_wakeIf hk).frozen
  · obtain ⟨rfl, rfl⟩ := Prod.mk.inj (Option.some.inj hact)
    exact h.keep (Globals.frozen_setState _ _ _) (by rw [hpoint]; exact fun _ _ hm ↦ hm)
      rfl (by simp)
  · obtain ⟨k, hk, hr⟩ := Option.map_eq_some_iff.mp hact
    obtain ⟨rfl, rfl⟩ := Prod.mk.inj hr
    exact h.keep (Kernel.scheduled_schedule hk).frozen (by rw [hpoint]; exact fun _ _ hm ↦ hm) rfl
      (by simp)
  · obtain ⟨⟨r, k⟩, hk, hr⟩ := Option.map_eq_some_iff.mp hact
    rcases Kernel.attemptReceive_ring hk with ⟨rfl, rfl⟩ | ⟨hne, rfl, hfrozen⟩
    · obtain ⟨rfl, rfl⟩ := Prod.mk.inj hr
      exact h.keep rfl (by simp [PushPoint.pending]) rfl (by simp)
    · obtain ⟨rfl, rfl⟩ := Prod.mk.inj hr
      exact h.pop hne hfrozen
  · obtain ⟨rfl, rfl⟩ := Prod.mk.inj (Option.some.inj hact)
    exact h.keep (Globals.frozen_setState _ _ _) (by simp [PushPoint.pending]) rfl (by simp)
  · obtain ⟨k, hk, hr⟩ := Option.map_eq_some_iff.mp hact
    obtain ⟨rfl, rfl⟩ := Prod.mk.inj hr
    exact h.keep (Kernel.scheduled_schedule hk).frozen (by simp [PushPoint.pending]) rfl (by simp)
  · simp at hact

/-- In every run of senders and receivers in which no push passes its full test while another
push to the same destination is between its full test and its update of `head`, every
message whose `send_message` has returned is in a slot of its own or has been popped once. -/
theorem noMessageLost_of_apart {k : Kernel Pointers} (hempty : k.RingsEmpty)
    (hrun : Relation.ReflTransGen (Senders.machine.Step PushesApart)
      ⟨.start k, fun _ ↦ .user⟩ c) : c.shared.NoMessageLost := by
  have hinv : SendersInv c := by
    refine Machine.invariant (I := SendersInv) ?_ ?_ hrun (.ofStart hempty)
    · intro c choice s l h hapart hact
      exact h.act hapart hact
    · intro c s h _ hs
      obtain ⟨k, hk, rfl⟩ := Option.map_eq_some_iff.mp hs
      exact h.scheduled (Kernel.scheduled_handleTimerTick hk).frozen
  exact hinv.noMessageLost

end

/-- Adding a process to the scheduler keeps what the scheduler does not write. -/
theorem Kernel.field_addProcessToScheduler {α : Type} (π : PCB → α) (hπ : ∀ b, π b.frozen = π b)
    {k k' : Kernel Pointers} {p : PcbPtr} {r : Int}
    (h : k.addProcessToScheduler p = some (r, k')) (d : PcbPtr) : π (k'.pcb d) = π (k.pcb d) := by
  unfold Kernel.addProcessToScheduler at h
  split_ifs at h with hfull
  · obtain ⟨rfl, rfl⟩ := Prod.mk.inj (Option.some.inj h)
    rfl
  · dsimp only at h
    split_ifs at h
    · obtain ⟨k₁, hk₁, h⟩ := Option.bind_eq_some_iff.mp h
      obtain ⟨rfl, rfl⟩ := Prod.mk.inj (Option.some.inj h)
      exact Globals.field_of_frozen (Kernel.steady_enqueueProcess hk₁).frozen π hπ d
    · obtain ⟨rfl, rfl⟩ := Prod.mk.inj (Option.some.inj h)
      rfl

theorem Kernel.ring_addProcessToScheduler {k k' : Kernel Pointers} {p : PcbPtr} {r : Int}
    (h : k.addProcessToScheduler p = some (r, k')) (d : PcbPtr) : k'.ring d = k.ring d :=
  Kernel.field_addProcessToScheduler PCB.messagesBuffer (fun _ ↦ rfl) h d

theorem Kernel.ringsEmpty_boot (algorithm : Algorithm) (timerClo : Nat → BitVec 32) :
    (Kernel.boot algorithm timerClo).RingsEmpty := by
  rintro (_ | i)
  · exact ⟨rfl, Nat.zero_le _⟩
  · exact ⟨rfl, Nat.zero_le _⟩

/-- Processes are created with empty rings, and ticks keep them. -/
theorem Kernel.RingsEmpty.runAll {ops : List Op} {k k' : Kernel Pointers} (h : k.RingsEmpty)
    (hops : ∀ op ∈ ops, op = .tick ∨ ∃ p pid, op = .add p (childOfInit pid))
    (hrun : DemosOS.runAll ops k = some k') : k'.RingsEmpty := by
  have hcongr : ∀ {k k' : Kernel Pointers}, (∀ d, k'.ring d = k.ring d) → k.RingsEmpty →
      k'.RingsEmpty := fun hring h d ↦ by
    rw [Kernel.ringEmpty_congr (hring d), hring]
    exact h d
  induction ops generalizing k with
  | nil =>
      obtain rfl := Option.some.inj hrun
      exact h
  | cons op ops ih =>
      rw [DemosOS.runAll] at hrun
      split_ifs at hrun
      obtain ⟨k₁, hk₁, hrun⟩ := Option.bind_eq_some_iff.mp hrun
      refine ih ?_ (fun op hop ↦ hops op (List.mem_cons_of_mem _ hop)) hrun
      rcases hops op List.mem_cons_self with rfl | ⟨p, pid, rfl⟩
      · exact hcongr (Kernel.scheduled_handleTimerTick hk₁).ring h
      · have hnew : (k.mapGlobals (·.modifyPcb p fun _ ↦ childOfInit pid)).RingsEmpty := fun d ↦ by
          by_cases hd : d = p
          · subst hd
            simp [Kernel.RingEmpty, Kernel.ring, childOfInit, PCB.zero]
          · have hd := h d
            simpa [Kernel.RingEmpty, Kernel.ring, *] using hd
        obtain ⟨⟨r, k₂⟩, hadd, rfl⟩ := Option.map_eq_some_iff.mp hk₁
        exact hcongr (Kernel.ring_addProcessToScheduler hadd) hnew

/-- Three processes under round robin, the first of which runs. -/
def trioStart : Option (Kernel Pointers) :=
  runAll [.add (.page 0) (childOfInit 1), .add (.page 1) (childOfInit 2),
    .add (.page 2) (childOfInit 3), .tick] (Kernel.boot .roundRobin fun _ ↦ 0)

theorem trioStart_ringsEmpty {k : Kernel Pointers} (hk : trioStart = some k) : k.RingsEmpty :=
  (Kernel.ringsEmpty_boot _ _).runAll (by simp) hk

/-- The steps of a push that is not disturbed. -/
def wholePush : List (Event IpcChoice) :=
  [.act (.send 3 [104]), .act .proceed, .act .proceed, .act .proceed, .act .proceed]

/-- One process sends a message to another one while nobody else runs. -/
theorem noMessageLost_whole : let _ := someImage
    ∃ k c, trioStart = some k ∧
      Senders.machine.run (fun _ c ↦ c.shared.kernel.currentProcess = .page 0) wholePush
        ⟨.start k, fun _ ↦ .user⟩ = some c ∧
      c.shared.returned (.page 2) = [⟨0, [104]⟩] ∧ c.shared.NoMessageLost := by
  intro _
  have hrun : trioStart.any (fun k ↦ (Senders.machine.run
      (fun _ c ↦ c.shared.kernel.currentProcess = .page 0) wholePush
      ⟨.start k, fun _ ↦ .user⟩).any fun c ↦ c.shared.returned (.page 2) =
        [⟨0, [104]⟩]) = true := by
    decide +kernel
  obtain ⟨k, hk, hrun⟩ := (Option.any_eq_true _ _).mp hrun
  obtain ⟨c, hc, hreturned⟩ := (Option.any_eq_true _ _).mp hrun
  refine ⟨k, c, hk, hc, of_decide_eq_true hreturned,
    noMessageLost_of_apart (trioStart_ringsEmpty hk) ?_⟩
  -- everybody else stays in user code
  refine Machine.reachable_mono (I := fun c ↦ ∀ q, q ≠ .page 0 → c.point q = .user) ?_ ?_
    (Machine.reachable_of_run hc) fun _ _ ↦ rfl
  · rintro c c' h ⟨e | -, hcur, hnext⟩ q hq
    · obtain ⟨r, -, rfl⟩ := Option.map_eq_some_iff.mp hnext
      refine (Function.update_of_ne (fun hqc ↦ hq (hqc.trans hcur)) ..).trans (h q hq)
    · obtain ⟨s, -, rfl⟩ := Option.map_eq_some_iff.mp hnext
      exact h q hq
  · rintro ((_ | _ | _) | _) c h hcur
    · trivial
    · trivial
    · intro d m _ _ q hq
      rw [h q (fun hq' ↦ hq (hq'.trans hcur.symm))]
      simp [PushPoint.inside]
    · trivial

/-- The first process is preempted after its full test, the second one sends a message to
the same destination, and the first one continues. -/
def overlappingPushes : List (Event IpcChoice) :=
  [.act (.send 3 [104]), .act .proceed] ++ List.replicate 10 .interrupt ++ wholePush ++
    List.replicate 20 .interrupt ++ [.act .proceed, .act .proceed, .act .proceed]

/-- Two processes have sent a message each, and one message is in the ring. -/
theorem noMessageLost_false :
    ¬ ∀ (image : KernelImage) (k : Kernel Pointers) (c : SendersConfig), k.RingsEmpty →
      Relation.ReflTransGen ((@Senders.machine image).Step fun _ _ ↦ True)
        ⟨.start k, fun _ ↦ .user⟩ c → @Senders.NoMessageLost image c.shared := by
  intro hclaim
  let _ := someImage
  have hrun : trioStart.any (fun k ↦ (Senders.machine.run (fun _ _ ↦ True) overlappingPushes
      ⟨.start k, fun _ ↦ .user⟩).any fun c ↦ (⟨0, [104]⟩ : Sent) ∈ c.shared.returned (.page 2) ∧
        ¬ ⟨0, [104]⟩ ∈ c.shared.popped (.page 2) ++ c.shared.queued (.page 2)) = true := by
    decide +kernel
  obtain ⟨k, hk, hrun⟩ := (Option.any_eq_true _ _).mp hrun
  obtain ⟨c, hc, hprop⟩ := (Option.any_eq_true _ _).mp hrun
  obtain ⟨hreturned, hlost⟩ := of_decide_eq_true hprop
  exact hlost (hclaim someImage k c (trioStart_ringsEmpty hk) (Machine.reachable_of_run hc)
    (.page 2) _ hreturned).1

end DemosOS
