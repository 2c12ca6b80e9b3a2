import DemosOS.Kernel.Messages
import DemosOS.Lib.Ring
import DemosOS.Sched.Frame
import DemosOS.Sched.Wake

/-!
# The message ring as a bounded queue

Sequences of `push_message` and `pop_message` on the ring of one process.  The wrap test
compares with the size of the array instead of its last index, so a push that is accepted
with `head` at `MAX_MESSAGES_PER_PROCESS` writes behind the array.  Up to such a push the
ring is a bounded queue that stays inside its array; the push itself does not.
-/

namespace DemosOS

open Lib

/-- A call on the ring of a process. -/
inductive RingOp
  | push (source : PcbPtr) (body : List UInt8)
  | pop

/-- The kernel, with the messages accepted and popped so far. -/
structure RingRun where
  kernel : Kernel Pointers
  accepted : List Message
  popped : List Message

namespace RingRun

/-- The ring holds as many messages as its array has slots. -/
def Full (s : RingRun) : Prop := s.accepted.length = s.popped.length + MAX_MESSAGES_PER_PROCESS

/-- The next call is a push that is accepted behind the array. -/
def Past (owner : PcbPtr) (s : RingRun) : RingOp → Prop
  | .push _ _ => (s.kernel.ring owner).head = MAX_MESSAGES_PER_PROCESS ∧
      (s.kernel.ring owner).tail ≠ 0
  | .pop => False

instance (owner : PcbPtr) (s : RingRun) (op : RingOp) : Decidable (s.Past owner op) :=
  match op with
  | .push _ _ => inferInstanceAs (Decidable (_ ∧ _))
  | .pop => inferInstanceAs (Decidable False)

variable [KernelImage]

/-- Perform one call and note what it accepted or returned. -/
def step (owner : PcbPtr) (s : RingRun) : RingOp → Option RingRun
  | .push source body => do
      let message : Message := ⟨some source, some owner, body⟩
      let (r, k) ← s.kernel.pushMessage owner message
      some ⟨k, if r = 0 then s.accepted ++ [message] else s.accepted, s.popped⟩
  | .pop =>
      match s.kernel.popMessage owner with
      | (none, k) => some ⟨k, s.accepted, s.popped⟩
      | (some message, k) => some ⟨k, s.accepted, s.popped ++ [message]⟩

/-- What is required of one call. -/
def StepOk (owner : PcbPtr) (s : RingRun) : RingOp → Prop
  | .push source body =>
      ∃ r k', s.kernel.pushMessage owner ⟨some source, some owner, body⟩ = some (r, k') ∧
        (r = -1 ↔ s.Full) ∧ (r = -1 → k' = s.kernel) ∧
        (r ≠ -1 → r = 0 ∧ (s.kernel.ring owner).head < MAX_MESSAGES_PER_PROCESS ∧
          -- the slot write changes nothing but the ring
          ∃ ring, s.kernel.writeSlot owner (s.kernel.ring owner).head
            ⟨some source, some owner, body⟩ = s.kernel.mapGlobals (·.modifyPcb owner fun b ↦
              { b with messagesBuffer := ring }))
  | .pop =>
      ((s.kernel.popMessage owner).1 = none ↔ s.accepted.length = s.popped.length) ∧
      ∀ message, (s.kernel.popMessage owner).1 = some message →
        (s.kernel.ring owner).tail < MAX_MESSAGES_PER_PROCESS ∧
          s.accepted[s.popped.length]? = some message

/-- Along the calls, the messages popped are the first ones accepted, and every call does
what is required of it. -/
def RunOk (owner : PcbPtr) : List RingOp → RingRun → Prop
  | [], s => s.popped <+: s.accepted
  | op :: ops, s => s.popped <+: s.accepted ∧ s.StepOk owner op ∧
      ∃ s', s.step owner op = some s' ∧ RunOk owner ops s'

/-- Along the calls, no push is accepted behind the array. -/
def NeverPast (owner : PcbPtr) : List RingOp → RingRun → Prop
  | [], _ => True
  | op :: ops, s => ¬ s.Past owner op ∧ ∀ s', s.step owner op = some s' → NeverPast owner ops s'

end RingRun

/-! ## The calls on the ring -/

theorem Scheduled.ring {k k' : Kernel Pointers} (h : Scheduled k.toGlobals k'.toGlobals)
    (p : PcbPtr) : k'.ring p = k.ring p :=
  Globals.field_of_frozen h.frozen PCB.messagesBuffer (fun _ ↦ rfl) p

namespace Kernel

section

variable (k : Kernel Pointers) (owner : PcbPtr)

@[simp] theorem ring_setHead (head : Nat) :
    (k.setHead owner head).ring owner = ⟨head, (k.ring owner).tail, (k.ring owner).buffer⟩ := by
  simp [setHead, Kernel.ring]

@[simp] theorem ring_setTail (tail : Nat) :
    (k.setTail owner tail).ring owner = ⟨(k.ring owner).head, tail, (k.ring owner).buffer⟩ := by
  simp [setTail, Kernel.ring]

end

variable [KernelImage] {k k' : Kernel Pointers} {owner : PcbPtr} {message : Message} {r : Int}

/-- The slots of the array are cells of the ring. -/
theorem readSlot_of_lt {i : Nat} (hi : i < MAX_MESSAGES_PER_PROCESS) :
    k.readSlot owner i = (k.ring owner).buffer i := by
  simp [readSlot, hi, Kernel.ring]

/-- A write inside the array changes nothing but the ring. -/
theorem writeSlot_of_lt {i : Nat} (hi : i < MAX_MESSAGES_PER_PROCESS) :
    k.writeSlot owner i message = k.mapGlobals (·.modifyPcb owner fun b ↦
      { b with messagesBuffer := ⟨(k.ring owner).head, (k.ring owner).tail,
        Function.update (k.ring owner).buffer i message⟩ }) := by
  rw [writeSlot, if_pos hi]
  rfl

theorem pushMessage_full (h : k.RingFull owner) : k.pushMessage owner message = some (-1, k) := by
  rw [pushMessage]
  exact if_pos h

/-- A push with room: the slot write, the update of `head` and the wake-up. -/
theorem pushMessage_room (h : ¬ k.RingFull owner) {destination : PcbPtr}
    (hd : message.destinationProcess = some destination) :
    k.pushMessage owner message =
      (((k.writeSlot owner (k.ring owner).head message).setHead owner
        (nextIndex (k.ring owner).head)).wakeReceiver destination).map fun k ↦ (0, k) := by
  rw [pushMessage]
  refine (if_neg h).trans ?_
  simp only [hd, Option.bind_eq_bind, Option.bind_some, Option.map_eq_bind]
  rfl

end Kernel

/-- Data of one control block that the wake-ups do not look at. -/
theorem InOrder.modifyPcb {k : Kernel Pointers} {a : Kernel Lists} (h : InOrder k a) (p : PcbPtr)
    {f : PCB → PCB} (hf : ∀ b, (f b).state = b.state) :
    InOrder (k.mapGlobals (·.modifyPcb p f)) (a.mapGlobals (·.modifyPcb p f)) where
  sim := h.sim.mapGlobals _
  filled := h.filled
  bound := h.bound
  known := h.known
  awake q x hx := by
    rw [Kernel.mapGlobals_toGlobals, a.toGlobals.modifyPcb_field p x f PCB.state hf]
    exact h.awake q x hx

/-! ## The invariant -/

/-- The ring of `owner` holds the messages accepted and not yet popped, and has not gone
around. -/
structure RingInv (owner : PcbPtr) (s : RingRun) : Prop where
  order : ∃ a, InOrder s.kernel a ∧ ∃ i < N_PROCESSES, a.processes i = some owner
  contents : ∃ l, s.accepted = s.popped ++ l ∧
    Ring.Represents (MAX_MESSAGES_PER_PROCESS + 1) (s.kernel.ring owner).head
      (s.kernel.ring owner).tail (s.kernel.ring owner).buffer l ∧
    (s.kernel.ring owner).tail + l.length ≤ MAX_MESSAGES_PER_PROCESS

namespace RingInv

variable {owner : PcbPtr} {s s' : RingRun}

theorem popped_first (h : RingInv owner s) : s.popped <+: s.accepted := by
  obtain ⟨l, hl, -⟩ := h.contents
  exact ⟨l, hl.symm⟩

/-- The full test finds out whether the array is full. -/
theorem full_iff (h : RingInv owner s) : s.kernel.RingFull owner ↔ s.Full := by
  obtain ⟨l, hl, hrep, hle⟩ := h.contents
  rw [Kernel.RingFull, nextIndex_eq hrep.head_lt, hrep.full_iff, RingRun.Full, hl,
    List.length_append]
  omega

/-- With room, and not behind the array, the next slot is one of the array. -/
theorem head_lt (h : RingInv owner s) {source : PcbPtr} {body : List UInt8}
    (hpast : ¬ s.Past owner (.push source body)) (hroom : ¬ s.kernel.RingFull owner) :
    (s.kernel.ring owner).head < MAX_MESSAGES_PER_PROCESS := by
  obtain ⟨l, -, hrep, hle⟩ := h.contents
  refine lt_of_le_of_ne (Nat.lt_succ_iff.mp hrep.head_lt) fun hhead ↦ ?_
  have htail : (s.kernel.ring owner).tail = 0 := by
    by_contra hne
    exact hpast ⟨hhead, hne⟩
  exact hroom (by rw [Kernel.RingFull, hhead, htail]; rfl)

variable [KernelImage]

theorem push_full (h : RingInv owner s) (source : PcbPtr) (body : List UInt8)
    (hfull : s.kernel.RingFull owner) :
    s.StepOk owner (.push source body) ∧ s.step owner (.push source body) = some s := by
  have hpush : s.kernel.pushMessage owner ⟨some source, some owner, body⟩ = some (-1, s.kernel) :=
    Kernel.pushMessage_full hfull
  refine ⟨⟨-1, s.kernel, hpush, iff_of_true rfl (h.full_iff.mp hfull), fun _ ↦ rfl,
    fun hne ↦ absurd rfl hne⟩, ?_⟩
  simp only [RingRun.step, hpush, Option.bind_eq_bind, Option.bind_some]
  rfl

theorem push_room (h : RingInv owner s) {source : PcbPtr} {body : List UInt8}
    (hpast : ¬ s.Past owner (.push source body)) (hroom : ¬ s.kernel.RingFull owner) :
    s.StepOk owner (.push source body) ∧
      ∃ s', s.step owner (.push source body) = some s' ∧ RingInv owner s' := by
  have hlt := h.head_lt hpast hroom
  have hnot := mt h.full_iff.mpr hroom
  obtain ⟨⟨a, ha, hknown⟩, l, hl, hrep, hle⟩ := h
  obtain ⟨k, accepted, popped⟩ := s
  simp only at hlt hroom hl hrep hle ha
  let message : Message := ⟨some source, some owner, body⟩
  -- the slot write and the update of `head`
  let ring : MessagesCircularBuffer :=
    ⟨nextIndex (k.ring owner).head, (k.ring owner).tail,
      Function.update (k.ring owner).buffer (k.ring owner).head message⟩
  have hwritten : (k.writeSlot owner (k.ring owner).head message).setHead owner
      (nextIndex (k.ring owner).head) = k.mapGlobals (·.modifyPcb owner fun b ↦
        { b with messagesBuffer := ring }) := by
    rw [Kernel.writeSlot_of_lt hlt]
    simp [Kernel.setHead, Kernel.mapGlobals, Globals.modifyPcb, ring]
  have ha₁ := ha.modifyPcb owner (f := fun b ↦ { b with messagesBuffer := ring }) fun _ ↦ rfl
  obtain ⟨k', a', hk', ha', hgrow, -⟩ := ha₁.wakeIf (s := .waitingToReceiveMessage) trivial hknown
  have hpush : k.pushMessage owner message = some (0, k') := by
    rw [Kernel.pushMessage_room hroom rfl, hwritten, Kernel.wakeReceiver, hk']
    rfl
  have hring : k'.ring owner = ring := by
    rw [(Kernel.steady_wakeIf hk').ring]
    simp [Kernel.ring]
  have hhead : (k.ring owner).head = (k.ring owner).tail + l.length := by
    have hhead := hrep.head_eq
    rwa [Nat.mod_eq_of_lt (by omega)] at hhead
  refine ⟨⟨0, k', hpush, iff_of_false (by decide) hnot, by simp, fun _ ↦
    ⟨rfl, hlt, _, Kernel.writeSlot_of_lt hlt⟩⟩, ⟨k', accepted ++ [message], popped⟩, ?_,
    ⟨a', ha', by rw [hgrow.processes]; exact hknown⟩, l ++ [message], ?_, ?_, ?_⟩
  · simp only [RingRun.step, Option.bind_eq_bind]
    rw [hpush]
    rfl
  · rw [hl, List.append_assoc]
  · have hwrite := hrep.write_head message
    have hroom' : ((k.ring owner).head + 1) % (MAX_MESSAGES_PER_PROCESS + 1) ≠
        (k.ring owner).tail := by
      rw [← nextIndex_eq hrep.head_lt]
      exact hroom
    have hadv := hwrite.advance_head hroom' (Function.update_self ..)
    rw [← nextIndex_eq hrep.head_lt] at hadv
    rw [hring]
    exact hadv
  · rw [hring, List.length_append, List.length_singleton]
    simp only [ring]
    omega

theorem pop (h : RingInv owner s) :
    s.StepOk owner .pop ∧ ∃ s', s.step owner .pop = some s' ∧ RingInv owner s' := by
  obtain ⟨⟨a, ha, hknown⟩, l, hl, hrep, hle⟩ := id h
  cases l with
  | nil =>
      have hempty : s.kernel.RingEmpty owner := hrep.empty_iff.mpr rfl
      have hpop : s.kernel.popMessage owner = (none, s.kernel) := if_pos hempty
      refine ⟨⟨iff_of_true (by rw [hpop]) (by rw [hl, List.append_nil]), fun m hm ↦ ?_⟩, s, ?_, h⟩
      · rw [hpop] at hm
        simp at hm
      · simp only [RingRun.step, hpop]
  | cons x l =>
      obtain ⟨k, accepted, popped⟩ := s
      simp only at hl hrep hle ha
      rw [List.length_cons] at hle
      have htail : (k.ring owner).tail < MAX_MESSAGES_PER_PROCESS := by omega
      obtain ⟨hx, hrest⟩ := hrep.advance_tail
      have hne : ¬ k.RingEmpty owner := fun he ↦ by
        have hnil := hrep.empty_iff.mp he
        simp at hnil
      have hpop : k.popMessage owner =
          (some x, k.setTail owner (nextIndex (k.ring owner).tail)) := by
        rw [Kernel.popMessage, if_neg hne, Kernel.readSlot_of_lt htail, hx]
      have ha' : InOrder (k.setTail owner (nextIndex (k.ring owner).tail)) _ :=
        ha.modifyPcb owner fun _ ↦ rfl
      refine ⟨⟨iff_of_false (by rw [hpop]; simp) ?_, fun m hm ↦ ?_⟩,
        ⟨k.setTail owner (nextIndex (k.ring owner).tail), accepted, popped ++ [x]⟩,
        by simp only [RingRun.step, hpop], ⟨_, ha', hknown⟩, l, by rw [hl, List.append_assoc]; rfl,
        ?_, ?_⟩
      · simp only [hl, List.length_append, List.length_cons]
        omega
      · rw [hpop] at hm
        obtain rfl := Option.some.inj hm
        exact ⟨htail, by rw [hl]; simp⟩
      · rw [Kernel.ring_setTail, nextIndex_eq hrep.tail_lt]
        exact hrest
      · rw [Kernel.ring_setTail]
        simp only [nextIndex]
        split_ifs <;> omega

end RingInv

/-! ## Sequences of calls -/

section

variable [KernelImage] {owner : PcbPtr} {s : RingRun}

/-- As long as no push is accepted behind the array, the ring is a bounded queue. -/
theorem RingInv.runOk (h : RingInv owner s) {ops : List RingOp}
    (hnever : RingRun.NeverPast owner ops s) : RingRun.RunOk owner ops s := by
  induction ops generalizing s with
  | nil => exact h.popped_first
  | cons op ops ih =>
      obtain ⟨hpast, hnever⟩ := hnever
      have hstep : s.StepOk owner op ∧ ∃ s', s.step owner op = some s' ∧ RingInv owner s' := by
        cases op with
        | push source body =>
            by_cases hfull : s.kernel.RingFull owner
            · obtain ⟨hok, hrun⟩ := h.push_full source body hfull
              exact ⟨hok, s, hrun, h⟩
            · exact h.push_room hpast hfull
        | pop => exact h.pop
      obtain ⟨hok, s', hrun, h'⟩ := hstep
      exact ⟨h.popped_first, hok, s', hrun, ih h' (hnever s' hrun)⟩

/-- A push behind the array is accepted at an index that is not below the size. -/
theorem RingRun.StepOk.not_past {op : RingOp} (h : s.StepOk owner op) : ¬ s.Past owner op := by
  cases op with
  | pop => exact id
  | push source body =>
      rintro ⟨hhead, htail⟩
      obtain ⟨r, k', hpush, -, -, haccepted⟩ := h
      have hroom : ¬ s.kernel.RingFull owner := by
        rw [Kernel.RingFull, hhead]
        exact Ne.symm htail
      rw [Kernel.pushMessage_room hroom rfl, Option.map_eq_some_iff] at hpush
      obtain ⟨k₁, -, hr⟩ := hpush
      obtain ⟨rfl, -⟩ := Prod.mk.inj hr
      have hlt := (haccepted (by decide)).2.1
      omega

theorem RingRun.RunOk.neverPast {ops : List RingOp} (h : RingRun.RunOk owner ops s) :
    RingRun.NeverPast owner ops s := by
  induction ops generalizing s with
  | nil => trivial
  | cons op ops ih =>
      obtain ⟨-, hok, s', hrun, hrest⟩ := h
      refine ⟨hok.not_past, fun s'' hrun' ↦ ?_⟩
      obtain rfl := Option.some.inj (hrun.symm.trans hrun')
      exact ih hrest

end

/-- The message ring of a process, starting empty, stays inside its array, refuses a message
exactly when it is full and returns the accepted messages in order, exactly along the
sequences of calls in which no push is accepted with `head` at the end of the array. -/
theorem messageRing_fifo_iff [KernelImage] {k : Kernel Pointers} {a : Kernel Lists}
    (h : InOrder k a) {owner : PcbPtr} (howner : ∃ i < N_PROCESSES, a.processes i = some owner)
    (hempty : k.RingEmpty owner) (hbound : (k.ring owner).tail ≤ MAX_MESSAGES_PER_PROCESS)
    (ops : List RingOp) :
    RingRun.RunOk owner ops ⟨k, [], []⟩ ↔ RingRun.NeverPast owner ops ⟨k, [], []⟩ := by
  refine ⟨fun hok ↦ hok.neverPast, fun hnever ↦
    RingInv.runOk ⟨⟨a, h, howner⟩, [], rfl, ?_, ?_⟩ hnever⟩
  · have hhead : (k.ring owner).head = (k.ring owner).tail := hempty
    simp only [hhead]
    exact Ring.Represents.nil (Nat.lt_succ_iff.mpr hbound)
  · simpa using hbound

/-! ## Around the ring -/

/-- A process with an empty ring. -/
def ringStart : Option (Kernel Pointers) :=
  runAll [.add (.page 0) (childOfInit 1)] (Kernel.boot .roundRobin fun _ ↦ 0)

theorem ringStart_spec : ∃ k a, ringStart = some k ∧ InOrder k a ∧
    (∃ i < N_PROCESSES, a.processes i = some (.page 0)) ∧ k.RingEmpty (.page 0) ∧
    (k.ring (.page 0)).tail ≤ MAX_MESSAGES_PER_PROCESS := by
  have hrun : ringStart.any (fun k ↦ k.processes 1 = some (.page 0) ∧ k.RingEmpty (.page 0) ∧
      (k.ring (.page 0)).tail ≤ MAX_MESSAGES_PER_PROCESS) = true := by
    decide +kernel
  obtain ⟨k, hk, hprop⟩ := (Option.any_eq_true _ _).mp hrun
  obtain ⟨hslot, hempty, htail⟩ := of_decide_eq_true hprop
  obtain ⟨a, ha⟩ := ((reachable_boot _ _).runAll hk).sound
  refine ⟨k, a, hk, ha.inOrder, ⟨1, by decide, ?_⟩, hempty, htail⟩
  rw [← ha.sim.globals]
  exact hslot

/-- An image whose static data starts at a mapped address. -/
abbrev someImage : KernelImage := ⟨0xffff000000090000⟩

/-- `NeverPast`, by running the calls. -/
def RingRun.neverPastCheck [KernelImage] (owner : PcbPtr) : List RingOp → RingRun → Bool
  | [], _ => true
  | op :: ops, s => ¬ s.Past owner op ∧ (s.step owner op).all (neverPastCheck owner ops)

theorem RingRun.neverPast_of_check [KernelImage] {owner : PcbPtr} {ops : List RingOp}
    {s : RingRun} (h : s.neverPastCheck owner ops = true) : s.NeverPast owner ops := by
  induction ops generalizing s with
  | nil => trivial
  | cons op ops ih =>
      obtain ⟨hpast, hrest⟩ := of_decide_eq_true h
      refine ⟨hpast, fun s' hs' ↦ ih ?_⟩
      rwa [hs', Option.all_some] at hrest

/-- Two messages go in and come out of the ring of a process that has just been created. -/
theorem messageRing_fifo_two : ∃ k, ringStart = some k ∧ @RingRun.RunOk someImage (.page 0)
    [.push (.page 0) [104], .push (.page 0) [105], .pop, .pop] ⟨k, [], []⟩ := by
  let _ := someImage
  obtain ⟨k, a, hk, ha, howner, hempty, htail⟩ := ringStart_spec
  have hcheck : ringStart.all (fun k ↦ RingRun.neverPastCheck (.page 0)
      [.push (.page 0) [104], .push (.page 0) [105], .pop, .pop] ⟨k, [], []⟩) = true := by
    decide +kernel
  rw [hk, Option.all_some] at hcheck
  exact ⟨k, hk, (messageRing_fifo_iff ha howner hempty htail _).mpr
    (RingRun.neverPast_of_check hcheck)⟩

/-- The fifth message is stored behind the array, in the fields that follow the ring. -/
theorem messageRing_fifo_false :
    ¬ ∀ (image : KernelImage) (k : Kernel Pointers) (a : Kernel Lists) (owner : PcbPtr)
      (ops : List RingOp), InOrder k a → (∃ i < N_PROCESSES, a.processes i = some owner) →
      k.RingEmpty owner → (k.ring owner).tail ≤ MAX_MESSAGES_PER_PROCESS →
      @RingRun.RunOk image owner ops ⟨k, [], []⟩ := by
  intro hclaim
  let _ := someImage
  obtain ⟨k, a, hk, ha, howner, hempty, htail⟩ := ringStart_spec
  have hnever := (hclaim someImage k a (.page 0) [.push (.page 0) [104],
    .push (.page 0) [105], .push (.page 0) [106], .push (.page 0) [107], .pop,
    .push (.page 0) [108]] ha howner hempty htail).neverPast
  have hcheck : ringStart.any (fun k ↦
      ([.push (.page 0) [104], .push (.page 0) [105], .push (.page 0) [106],
        .push (.page 0) [107], .pop].foldlM (fun s op ↦ RingRun.step (.page 0) s op)
          (⟨k, [], []⟩ : RingRun)).any
            fun s ↦ s.Past (.page 0) (.push (.page 0) [108])) = true := by
    decide +kernel
  rw [hk, Option.any_some] at hcheck
  obtain ⟨s, hs, hpast⟩ := (Option.any_eq_true _ _).mp hcheck
  simp only [List.foldlM_cons, List.foldlM_nil, Option.bind_eq_bind, Option.pure_def,
    Option.bind_eq_some_iff] at hs
  obtain ⟨s₁, h₁, s₂, h₂, s₃, h₃, s₄, h₄, s₅, h₅, hs⟩ := hs
  obtain rfl := Option.some.inj hs
  have hlast := ((((hnever.2 s₁ h₁).2 s₂ h₂).2 s₃ h₃).2 s₄ h₄).2 s₅ h₅
  exact hlast.1 (of_decide_eq_true hpast)

end DemosOS
