import DemosOS.Ipc.Senders
import DemosOS.Sched.Core

/-!
# Message bodies

A body travels through four copies: the caller's string is copied into a local
`struct Message`, which is assigned to a slot of the ring, whose body is copied into another
local message, and from there into the buffer of the receiver.  All but the assignment use
`strcpy`, which stops at the terminating zero and knows nothing about the size of its
destination.

Here a body in the ring is the array of its bytes.  As long as every string that is sent to an
existing process fits into such an array, no copy leaves its destination, and what a process
receives are the strings sent to it, in order.
-/

namespace DemosOS

open Lib

def MAX_MESSAGES_BODY_SIZE : Nat := 256

/-! ## `strcpy` -/

/-- `dest[i] = c`; there is no such byte beyond the end of the object. -/
def storeByte (dest : List UInt8) (i : Nat) (c : UInt8) : Option (List UInt8) :=
  if i < dest.length then some (dest.set i c) else none

/-- The loop of `strcpy` after `i` characters; `src` is what is left of the source object. -/
def strcpyFrom (i : Nat) : List UInt8 → List UInt8 → Option (List UInt8)
  | [], _ => none
  | c :: src, dest =>
      if c ≠ 0 then (storeByte dest i c).bind (strcpyFrom (i + 1) src) else storeByte dest i 0

/-- `strcpy`, between objects given by their bytes.  There is no result if the function reads
or writes behind the end of one of them. -/
def strcpy (dest src : List UInt8) : Option (List UInt8) := strcpyFrom 0 src dest

/-- A string, without its terminating zero. -/
structure CString where
  chars : List UInt8
  nonzero : ∀ c ∈ chars, c ≠ 0

/-- The bytes of a string in memory. -/
def CString.bytes (s : CString) : List UInt8 := s.chars ++ [0]

/-- The characters before the first zero. -/
def readString (object : List UInt8) : List UInt8 := object.takeWhile (· ≠ 0)

/-- An object starts with the bytes of a string. -/
def Holds (object : List UInt8) (s : CString) : Prop := s.bytes <+: object

namespace Holds

variable {object dest : List UInt8} {s : CString}

theorem readString (h : Holds object s) : DemosOS.readString object = s.chars := by
  obtain ⟨rest, rfl⟩ := h
  unfold DemosOS.readString CString.bytes
  rw [List.append_assoc, List.takeWhile_append_of_pos fun c hc ↦ by simpa using s.nonzero c hc]
  simp

theorem length_lt (h : Holds object s) : s.chars.length < object.length := by
  have hle := h.length_le
  simp only [CString.bytes, List.length_append, List.length_singleton] at hle
  omega

end Holds

/-- The write after what has already been written. -/
theorem storeByte_append (done rest : List UInt8) (x c : UInt8) :
    storeByte (done ++ x :: rest) done.length c = some (done ++ [c] ++ rest) := by
  unfold storeByte
  rw [if_pos (by simp), List.set_append, if_neg (Nat.lt_irrefl _), Nat.sub_self]
  simp

/-- The loop copies a string to where it fits. -/
theorem strcpyFrom_fits {chars : List UInt8} (hchars : ∀ c ∈ chars, c ≠ 0) (src : List UInt8)
    (done : List UInt8) {rest : List UInt8} (hfits : chars.length < rest.length) :
    strcpyFrom done.length (chars ++ 0 :: src) (done ++ rest) =
      some (done ++ (chars ++ 0 :: rest.drop (chars.length + 1))) := by
  induction chars generalizing done rest with
  | nil =>
      obtain ⟨x, rest, rfl⟩ := List.exists_cons_of_length_pos hfits
      rw [List.nil_append, strcpyFrom, if_neg (by simp), storeByte_append]
      simp
  | cons c chars ih =>
      obtain ⟨x, rest, rfl⟩ := List.exists_cons_of_length_pos (Nat.zero_lt_of_lt hfits)
      rw [List.cons_append, strcpyFrom, if_pos (hchars c List.mem_cons_self), storeByte_append,
        Option.bind_some]
      have hrest := ih (fun b hb ↦ hchars b (List.mem_cons_of_mem _ hb)) (done ++ [c])
        (by simpa using hfits)
      rw [List.length_append, List.length_singleton] at hrest
      rw [hrest]
      simp

/-- The loop writes behind the end of an object that is too small. -/
theorem strcpyFrom_exceeds {chars : List UInt8} (hchars : ∀ c ∈ chars, c ≠ 0) (src : List UInt8)
    (done : List UInt8) {rest : List UInt8} (hexceeds : rest.length ≤ chars.length) :
    strcpyFrom done.length (chars ++ 0 :: src) (done ++ rest) = none := by
  induction chars generalizing done rest with
  | nil =>
      obtain rfl := List.length_eq_zero_iff.mp (Nat.le_zero.mp hexceeds)
      simp [strcpyFrom, storeByte]
  | cons c chars ih =>
      rw [List.cons_append, strcpyFrom, if_pos (hchars c List.mem_cons_self)]
      cases rest with
      | nil => simp [storeByte]
      | cons x rest =>
          rw [storeByte_append, Option.bind_some]
          have hrest := ih (fun b hb ↦ hchars b (List.mem_cons_of_mem _ hb)) (done ++ [c])
            (by simpa using hexceeds)
          rwa [List.length_append, List.length_singleton] at hrest

/-- `strcpy` of a string into an object of sufficient size. -/
theorem strcpy_fits {dest src : List UInt8} {s : CString} (hsrc : Holds src s)
    (hfits : s.chars.length < dest.length) :
    ∃ out, strcpy dest src = some out ∧ out.length = dest.length ∧ Holds out s := by
  obtain ⟨more, rfl⟩ := hsrc
  have hcopy := strcpyFrom_fits s.nonzero more [] hfits
  rw [List.length_nil, List.nil_append, List.nil_append] at hcopy
  refine ⟨_, by rw [strcpy, CString.bytes, List.append_assoc]; exact hcopy, ?_, ?_⟩
  · simp only [List.length_append, List.length_cons, List.length_drop]
    omega
  · exact ⟨dest.drop (s.chars.length + 1), by simp [CString.bytes]⟩

theorem strcpy_isSome_iff (dest : List UInt8) (s : CString) :
    (strcpy dest s.bytes).isSome ↔ s.chars.length < dest.length := by
  constructor
  · intro hsome
    by_contra hexceeds
    have hnone := strcpyFrom_exceeds s.nonzero [] [] (Nat.le_of_not_lt hexceeds)
    have hnone : strcpy dest s.bytes = none := hnone
    rw [hnone] at hsome
    simp at hsome
  · intro hfits
    obtain ⟨out, hout, -⟩ := strcpy_fits (List.prefix_refl s.bytes) hfits
    rw [hout]
    rfl

/-! ## The calls -/

/-- An array of `MAX_MESSAGES_BODY_SIZE` bytes. -/
structure BodyArray where
  bytes : List UInt8
  size : bytes.length = MAX_MESSAGES_BODY_SIZE

/-- An operation of the scheduler, or a message system call of the running process up to the
test of its result: the string it sends, and its uninitialised local message; or the local
message and the buffer of the receiver. -/
inductive BodyCall
  | op (op : Op)
  | send (destinationPid : Int) (body : CString) (message : BodyArray)
  | receive (message buffer : BodyArray)

/-- The kernel, with the strings sent to each process and received by it since it was
created. -/
structure Mailboxes where
  kernel : Kernel Pointers
  sent : PcbPtr → List CString
  received : PcbPtr → List (List UInt8)

namespace Mailboxes

/-- Nothing has been sent yet. -/
def start (k : Kernel Pointers) : Mailboxes := ⟨k, fun _ ↦ [], fun _ ↦ []⟩

/-- What a process has received are the strings sent to it, in order. -/
def Delivered (s : Mailboxes) : Prop := ∀ d, s.received d <+: (s.sent d).map CString.chars

variable [KernelImage]

/-- `syscall_send_message` up to the test of the result of `push_message`, and
`syscall_receive_message` up to the test of the result of `pop_message`.  There is no next
state if a copy leaves its destination. -/
def step (s : Mailboxes) : BodyCall → Option Mailboxes
  | .op (.add p b) => ((Op.add p b).run s.kernel).map fun k ↦
      ⟨k, Function.update s.sent p [], Function.update s.received p []⟩
  | .op op => (op.run s.kernel).map fun k ↦ { s with kernel := k }
  | .send destinationPid body message =>
      match s.kernel.searchProcess destinationPid with
      | none => some s
      | some d => do
          let bytes ← strcpy message.bytes body.bytes
          let (r, k) ← s.kernel.attemptSend d bytes
          some { s with
            kernel := k
            sent := if r = 0 then Function.update s.sent d (s.sent d ++ [body]) else s.sent }
  | .receive message buffer => do
      let p := s.kernel.currentProcess
      match ← s.kernel.attemptReceive with
      | (none, k) => some { s with kernel := k }
      | (some body, k) =>
          let bytes ← strcpy message.bytes body
          let out ← strcpy buffer.bytes bytes
          some { s with
            kernel := k
            received := Function.update s.received p (s.received p ++ [readString out]) }

/-- No copy of a call leaves its destination. -/
def InBounds (s : Mailboxes) : BodyCall → Prop
  | .op _ => True
  | .send destinationPid body message => ∀ d, s.kernel.searchProcess destinationPid = some d →
      (strcpy message.bytes body.bytes).isSome
  | .receive message buffer => ∀ body k, s.kernel.attemptReceive = some (some body, k) →
      ∃ bytes, strcpy message.bytes body = some bytes ∧ (strcpy buffer.bytes bytes).isSome

end Mailboxes

namespace BodyCall

/-- The callers of the scheduler keep their promises, and the ring of a new process is
empty. -/
def Enabled (g : Globals) : BodyCall → Prop
  | op o => o.Enabled g ∧ ∀ p b, o = .add p b → b.messagesBuffer.head = b.messagesBuffer.tail ∧
      b.messagesBuffer.tail ≤ MAX_MESSAGES_PER_PROCESS
  | send .. | receive .. => True

/-- A string that is sent to an existing process fits into a body. -/
def Short (g : Globals) : BodyCall → Prop
  | send destinationPid body _ => ∀ d, g.searchProcess destinationPid = some d →
      body.chars.length < MAX_MESSAGES_BODY_SIZE
  | op _ | receive .. => True

end BodyCall

namespace Mailboxes

variable [KernelImage]

/-- Along the calls, no copy leaves its destination, and the strings arrive. -/
def RunOk : List BodyCall → Mailboxes → Prop
  | [], s => s.Delivered
  | call :: calls, s => s.Delivered ∧ (call.Enabled s.kernel.toGlobals →
      s.InBounds call ∧ ∀ s', s.step call = some s' → RunOk calls s')

/-- Along the calls, only short strings are sent. -/
def OnlyShort : List BodyCall → Mailboxes → Prop
  | [], _ => True
  | call :: calls, s => call.Enabled s.kernel.toGlobals →
      call.Short s.kernel.toGlobals ∧ ∀ s', s.step call = some s' → OnlyShort calls s'

end Mailboxes

/-! ## The rings -/

namespace Kernel

variable [KernelImage] {k k' : Kernel Pointers} {d : PcbPtr} {objects : List (List UInt8)}

/-- The bodies in the ring of a process, the next one to be received first. -/
def Mailbox (k : Kernel Pointers) (d : PcbPtr) (objects : List (List UInt8)) : Prop :=
  Ring.Represents (MAX_MESSAGES_PER_PROCESS + 1) (k.ring d).head (k.ring d).tail
    (fun i ↦ (k.readSlot d i).body) objects

/-- The ring of a process depends on two fields of its control block. -/
theorem Mailbox.congr (h : k.Mailbox d objects) (hring : k'.ring d = k.ring d)
    (hpast : (k'.pcb d).pastEnd = (k.pcb d).pastEnd) : k'.Mailbox d objects := by
  have hcell : (fun i ↦ (k'.readSlot d i).body) = fun i ↦ (k.readSlot d i).body :=
    funext (readSlot_body_congr (congrArg _ hring) hpast)
  unfold Mailbox
  rwa [hring, hcell]

theorem Mailbox.of_frozen (h : k.Mailbox d objects)
    (hk : k'.toGlobals.frozen = k.toGlobals.frozen) : k'.Mailbox d objects :=
  h.congr (ring_of_frozen hk d) (Globals.field_of_frozen hk PCB.pastEnd (fun _ ↦ rfl) d)

/-- The ring of a new process. -/
theorem Mailbox.nil (hempty : (k.ring d).head = (k.ring d).tail)
    (htail : (k.ring d).tail ≤ MAX_MESSAGES_PER_PROCESS) : k.Mailbox d [] := by
  unfold Mailbox
  rw [hempty]
  exact Ring.Represents.nil (Nat.lt_succ_of_le htail)

/-- A push attempt of the running process, as an access to the ring and a wake-up. -/
theorem attemptSend_ring {body : List UInt8} {r : Int} (h : k.attemptSend d body = some (r, k')) :
    (r ≠ 0 ∧ k' = k) ∨ (r = 0 ∧ ¬ k.RingFull d ∧ k'.toGlobals.frozen =
      ((k.writeSlot d (k.ring d).head (k.composeMessage d body)).setHead d
        (nextIndex (k.ring d).head)).toGlobals.frozen) := by
  unfold attemptSend at h
  by_cases hfull : k.RingFull d
  · rw [pushMessage_full hfull] at h
    obtain ⟨rfl, rfl⟩ := Prod.mk.inj (Option.some.inj h)
    exact .inl ⟨by decide, rfl⟩
  · rw [pushMessage_room hfull rfl, Option.map_eq_some_iff] at h
    obtain ⟨k₁, hwake, hr⟩ := h
    obtain ⟨rfl, rfl⟩ := Prod.mk.inj hr
    exact .inr ⟨rfl, hfull, (steady_wakeIf hwake).frozen⟩

/-- An accepted body enters the ring at its end. -/
theorem Mailbox.push (h : k.Mailbox d objects) {body : List UInt8} (hroom : ¬ k.RingFull d)
    (hk : k'.toGlobals.frozen =
      ((k.writeSlot d (k.ring d).head (k.composeMessage d body)).setHead d
        (nextIndex (k.ring d).head)).toGlobals.frozen) : k'.Mailbox d (objects ++ [body]) := by
  refine Mailbox.of_frozen ?_ hk
  have hwrite := Ring.Represents.write_head h body
  have hnext := nextIndex_eq (Ring.Represents.head_lt h)
  rw [RingFull, hnext] at hroom
  have hadvanced := hwrite.advance_head hroom (Function.update_self ..)
  rw [← hnext] at hadvanced
  obtain ⟨hhead, htail⟩ := ring_writeSlot (k := k) d (k.ring d).head (k.composeMessage d body) d
  unfold Mailbox
  simp only [ring_setHead, readSlot_body_setHead, htail]
  refine Ring.Represents.congr hadvanced fun i hi ↦ ?_
  rw [readSlot_body_writeSlot d (Ring.Represents.head_lt h) hi, Function.update_apply]
  rfl

/-- The rings of the others. -/
theorem Mailbox.push_of_ne {d' : PcbPtr} (h : k.Mailbox d' objects) (hd : d' ≠ d)
    {body : List UInt8} (hk : k'.toGlobals.frozen =
      ((k.writeSlot d (k.ring d).head (k.composeMessage d body)).setHead d
        (nextIndex (k.ring d).head)).toGlobals.frozen) : k'.Mailbox d' objects := by
  refine Mailbox.of_frozen (h.congr ?_ ?_) hk
  · rw [ring_setHead_of_ne hd]
    exact congrArg PCB.messagesBuffer (pcb_writeSlot_of_ne hd _ _)
  · refine Eq.trans ?_ (congrArg PCB.pastEnd (pcb_writeSlot_of_ne (k := k) hd (k.ring d).head
      (k.composeMessage d body)))
    simp [setHead, hd]

/-- A pop takes the first body out. -/
theorem Mailbox.pop (h : k.Mailbox d objects) (hne : ¬ k.RingEmpty d)
    (hk : k'.toGlobals.frozen =
      (k.setTail d (nextIndex (k.ring d).tail)).toGlobals.frozen) :
    ∃ rest, objects = (k.readSlot d (k.ring d).tail).body :: rest ∧ k'.Mailbox d rest := by
  cases objects with
  | nil => exact absurd ((Ring.Represents.empty_iff h).mpr rfl) hne
  | cons body rest =>
      obtain ⟨hbody, hrest⟩ := Ring.Represents.advance_tail h
      refine ⟨rest, by rw [hbody], Mailbox.of_frozen ?_ hk⟩
      unfold Mailbox
      simp only [ring_setTail, readSlot_body_setTail]
      rwa [nextIndex_eq (Ring.Represents.tail_lt h)]

theorem Mailbox.pop_of_ne {d' : PcbPtr} (h : k.Mailbox d' objects) (hd : d' ≠ d)
    (hk : k'.toGlobals.frozen =
      (k.setTail d (nextIndex (k.ring d).tail)).toGlobals.frozen) : k'.Mailbox d' objects := by
  refine Mailbox.of_frozen (h.congr (ring_setTail_of_ne hd _) ?_) hk
  simp [setTail, hd]

end Kernel

/-! ## The invariant -/

/-- The strings in the ring of a process are those that have been sent and not received. -/
def MailInv [KernelImage] (s : Mailboxes) (d : PcbPtr) : Prop :=
  ∃ (waiting : List CString) (objects : List (List UInt8)),
    (s.sent d).map CString.chars = s.received d ++ waiting.map CString.chars ∧
    List.Forall₂ (fun object string ↦ object.length = MAX_MESSAGES_BODY_SIZE ∧ Holds object string)
      objects waiting ∧ s.kernel.Mailbox d objects

namespace MailInv

variable [KernelImage] {s : Mailboxes} {d : PcbPtr}

/-- Nothing happens to the ring of the process. -/
theorem keep (h : MailInv s d) {s' : Mailboxes} (hsent : s'.sent d = s.sent d)
    (hreceived : s'.received d = s.received d)
    (hmailbox : ∀ objects, s.kernel.Mailbox d objects → s'.kernel.Mailbox d objects) :
    MailInv s' d := by
  obtain ⟨waiting, objects, hstrings, hobjects, hk⟩ := h
  exact ⟨waiting, objects, by rw [hsent, hreceived, hstrings], hobjects, hmailbox _ hk⟩

theorem delivered (h : MailInv s d) : s.received d <+: (s.sent d).map CString.chars := by
  obtain ⟨waiting, -, hstrings, -⟩ := h
  exact ⟨_, hstrings.symm⟩

end MailInv

namespace Mailboxes

variable [KernelImage] {s s' : Mailboxes}

/-- The first body in a ring can be received. -/
theorem receive_spec (h : MailInv s s.kernel.currentProcess) {body : List UInt8}
    {k : Kernel Pointers} (hk : s.kernel.attemptReceive = some (some body, k))
    (message buffer : BodyArray) : ∃ bytes out, strcpy message.bytes body = some bytes ∧
      strcpy buffer.bytes bytes = some out ∧
      MailInv ⟨k, s.sent, Function.update s.received s.kernel.currentProcess
        (s.received s.kernel.currentProcess ++ [readString out])⟩ s.kernel.currentProcess := by
  obtain ⟨waiting, objects, hstrings, hobjects, hmailbox⟩ := h
  obtain ⟨hnone, -⟩ | ⟨hne, hbody, hfrozen⟩ := Kernel.attemptReceive_ring hk
  · simp at hnone
  obtain ⟨rest, rfl, hrest⟩ := hmailbox.pop hne hfrozen
  rw [← Option.some.inj hbody] at hobjects
  cases hobjects with
  | cons hfirst hothers =>
      rename_i string strings
      obtain ⟨hsize, hholds⟩ := hfirst
      have hlt := hholds.length_lt
      rw [hsize] at hlt
      obtain ⟨bytes, hbytes, hlen, hholds₁⟩ := strcpy_fits hholds (by rwa [message.size])
      obtain ⟨out, hout, -, hholds₂⟩ := strcpy_fits hholds₁ (by rwa [buffer.size])
      refine ⟨bytes, out, hbytes, hout, strings, rest, ?_, hothers, hrest⟩
      dsimp only
      rw [Function.update_self, hstrings, hholds₂.readString, List.map_cons, List.append_assoc]
      rfl

/-- A call leaves its destinations alone exactly if the string it sends is short. -/
theorem inBounds_iff (h : ∀ d, MailInv s d) (call : BodyCall) :
    s.InBounds call ↔ call.Short s.kernel.toGlobals := by
  cases call with
  | op o => exact Iff.rfl
  | send pid body message =>
      refine forall₂_congr fun d _ ↦ ?_
      rw [strcpy_isSome_iff, message.size]
  | receive message buffer =>
      refine iff_of_true (fun body k hk ↦ ?_) trivial
      obtain ⟨bytes, out, hbytes, hout, -⟩ := receive_spec (h _) hk message buffer
      exact ⟨bytes, hbytes, by rw [hout]; rfl⟩

/-- An operation of the scheduler. -/
theorem mailInv_op (h : ∀ d, MailInv s d) {o : Op} (ho : (BodyCall.op o).Enabled s.kernel.toGlobals)
    (hs : s.step (.op o) = some s') : ∀ d, MailInv s' d := by
  obtain ⟨-, hnew⟩ := ho
  by_cases hadd : ∃ p b, o = .add p b
  · obtain ⟨p, b, rfl⟩ := hadd
    obtain ⟨k, hk, rfl⟩ := Option.map_eq_some_iff.mp hs
    obtain ⟨⟨r, k₁⟩, hadded, rfl⟩ := Option.map_eq_some_iff.mp hk
    intro d
    have hring := Kernel.ring_addProcessToScheduler hadded d
    have hpast := Kernel.field_addProcessToScheduler PCB.pastEnd (fun _ ↦ rfl) hadded d
    by_cases hd : d = p
    · -- the new process starts with an empty ring
      subst hd
      obtain ⟨hempty, htail⟩ := hnew d b rfl
      have hring : k₁.ring d = b.messagesBuffer := hring.trans (by simp [Kernel.ring])
      refine ⟨[], [], by simp, .nil, Kernel.Mailbox.nil ?_ ?_⟩
      · rw [hring, hempty]
      · rwa [hring]
    · refine (h d).keep (Function.update_of_ne hd ..) (Function.update_of_ne hd ..)
        fun objects hobjects ↦ hobjects.congr (hring.trans ?_) (hpast.trans ?_)
      · simp [Kernel.ring, hd]
      · simp [hd]
  · have hadd : ∀ p b, o ≠ .add p b := fun p b he ↦ hadd ⟨p, b, he⟩
    have hs : (o.run s.kernel).map (fun k ↦ { s with kernel := k }) = some s' := by
      cases o with
      | add p b => exact absurd rfl (hadd p b)
      | wake | yield | block | wait | exit | tick | signal | setParam => exact hs
    obtain ⟨k, hk, rfl⟩ := Option.map_eq_some_iff.mp hs
    have hcore := Op.core_run hadd hk
    exact fun d ↦ (h d).keep rfl rfl fun objects hobjects ↦
      hobjects.congr (Globals.field_of_core hcore PCB.messagesBuffer (fun _ ↦ rfl) d)
        (Globals.field_of_core hcore PCB.pastEnd (fun _ ↦ rfl) d)

/-- A send: an accepted string is at the end of the ring. -/
theorem mailInv_send (h : ∀ d, MailInv s d) {pid : Int} {body : CString} {message : BodyArray}
    (hshort : (BodyCall.send pid body message).Short s.kernel.toGlobals)
    (hs : s.step (.send pid body message) = some s') : ∀ d, MailInv s' d := by
  simp only [step] at hs
  split at hs
  · rw [← Option.some.inj hs]
    exact h
  · rename_i d hd
    obtain ⟨bytes, hbytes, hs⟩ := Option.bind_eq_some_iff.mp hs
    obtain ⟨⟨r, k⟩, hk, hs⟩ := Option.bind_eq_some_iff.mp hs
    obtain rfl := Option.some.inj hs
    have hlt := hshort d hd
    obtain ⟨out, hout, hlen, hholds⟩ :=
      strcpy_fits (List.prefix_refl body.bytes) (by rwa [message.size])
    obtain rfl := Option.some.inj (hout.symm.trans hbytes)
    obtain ⟨hr, rfl⟩ | ⟨rfl, hroom, hfrozen⟩ := Kernel.attemptSend_ring hk
    · exact fun d' ↦ (h d').keep (by simp [hr]) rfl fun _ ↦ id
    · intro d'
      by_cases hd' : d' = d
      · subst hd'
        obtain ⟨waiting, objects, hstrings, hobjects, hmailbox⟩ := h d'
        refine ⟨waiting ++ [body], objects ++ [out], ?_,
          List.rel_append hobjects (.cons ⟨hlen.trans message.size, hholds⟩ .nil),
          hmailbox.push hroom hfrozen⟩
        simp [hstrings]
      · exact (h d').keep (by simp [hd']) rfl fun objects hobjects ↦ hobjects.push_of_ne hd' hfrozen

/-- A receive: the first string of the ring reaches the buffer. -/
theorem mailInv_receive (h : ∀ d, MailInv s d) {message buffer : BodyArray}
    (hs : s.step (.receive message buffer) = some s') : ∀ d, MailInv s' d := by
  obtain ⟨⟨r, k⟩, hk, hs⟩ := Option.bind_eq_some_iff.mp hs
  cases r with
  | none =>
      obtain rfl := Option.some.inj hs
      obtain ⟨-, rfl⟩ | ⟨-, hbody, -⟩ := Kernel.attemptReceive_ring hk
      · exact h
      · simp at hbody
  | some body =>
      obtain ⟨bytes, out, hbytes, hout, hinv⟩ := receive_spec (h _) hk message buffer
      dsimp only at hs
      rw [hbytes, Option.bind_eq_bind, Option.bind_some, hout, Option.bind_some] at hs
      obtain rfl := Option.some.inj hs
      obtain ⟨hnone, -⟩ | ⟨-, -, hfrozen⟩ := Kernel.attemptReceive_ring hk
      · simp at hnone
      intro d
      by_cases hd : d = s.kernel.currentProcess
      · rw [hd]
        exact hinv
      · exact (h d).keep rfl (Function.update_of_ne hd ..) fun objects hobjects ↦
          hobjects.pop_of_ne hd hfrozen

theorem mailInv_step (h : ∀ d, MailInv s d) {call : BodyCall}
    (henabled : call.Enabled s.kernel.toGlobals) (hshort : call.Short s.kernel.toGlobals)
    (hs : s.step call = some s') : ∀ d, MailInv s' d := by
  cases call with
  | op o => exact mailInv_op h henabled hs
  | send pid body message => exact mailInv_send h hshort hs
  | receive message buffer => exact mailInv_receive h hs

/-- The strings arrive and no copy leaves its destination, exactly along the calls in which
only short strings are sent. -/
theorem runOk_iff (h : ∀ d, MailInv s d) (calls : List BodyCall) :
    RunOk calls s ↔ OnlyShort calls s := by
  have hdelivered : s.Delivered := fun d ↦ (h d).delivered
  induction calls generalizing s with
  | nil => exact iff_of_true hdelivered trivial
  | cons call calls ih =>
      refine (and_iff_right hdelivered).trans (forall_congr' fun henabled ↦ ?_)
      rw [inBounds_iff h]
      refine and_congr_right fun hshort ↦ forall₂_congr fun s' hs' ↦ ?_
      have h' := mailInv_step h henabled hshort hs'
      exact ih h' fun d ↦ (h' d).delivered

end Mailboxes

/-- Starting with empty rings, along any operations of the scheduler and any sends and
receives, what every process receives are the strings sent to it, in order, and no copy
leaves its destination, exactly as long as every string that is sent to an existing process
is shorter than `MAX_MESSAGES_BODY_SIZE`. -/
theorem bodiesSurvive_iff [KernelImage] {k : Kernel Pointers} (hempty : k.RingsEmpty)
    (calls : List BodyCall) :
    Mailboxes.RunOk calls (.start k) ↔ Mailboxes.OnlyShort calls (.start k) := by
  have hstart : ∀ d, MailInv (.start k) d := fun d ↦ by
    obtain ⟨hring, htail⟩ := hempty d
    have hmailbox : k.Mailbox d [] := .nil hring htail
    exact ⟨[], [], rfl, .nil, hmailbox⟩
  exact Mailboxes.runOk_iff hstart calls

/-- If no string is long, no string is long along the calls. -/
theorem Mailboxes.onlyShort_of_forall [KernelImage] {calls : List BodyCall} {s : Mailboxes}
    (h : ∀ call ∈ calls, ∀ g, call.Short g) : OnlyShort calls s := by
  induction calls generalizing s with
  | nil => trivial
  | cons call calls ih =>
      intro _
      exact ⟨h call List.mem_cons_self _, fun s' _ ↦
        ih fun c hc ↦ h c (List.mem_cons_of_mem _ hc)⟩

/-- An array that nothing has been written to. -/
def unwritten : BodyArray := ⟨List.replicate MAX_MESSAGES_BODY_SIZE 0xFF, List.length_replicate⟩

/-- A process sends a message to another one, which receives it when it runs. -/
def greeting : List BodyCall :=
  .send 2 ⟨[104, 105], by simp⟩ unwritten :: List.replicate 10 (.op .tick) ++
    [.receive unwritten unwritten]

/-- The message arrives. -/
theorem bodiesSurvive_greeting : let _ := someImage
    ∃ k s, trioStart = some k ∧ greeting.foldlM Mailboxes.step (.start k) = some s ∧
      s.received (.page 1) = [[104, 105]] ∧ Mailboxes.RunOk greeting (.start k) := by
  intro _
  have hrun : trioStart.any (fun k ↦ (greeting.foldlM Mailboxes.step (.start k)).any fun s ↦
      s.received (.page 1) = [[104, 105]]) = true := by
    decide +kernel
  obtain ⟨k, hk, hrun⟩ := (Option.any_eq_true _ _).mp hrun
  obtain ⟨s, hs, hreceived⟩ := (Option.any_eq_true _ _).mp hrun
  refine ⟨k, s, hk, hs, of_decide_eq_true hreceived,
    (bodiesSurvive_iff (trioStart_ringsEmpty hk) greeting).mpr (Mailboxes.onlyShort_of_forall ?_)⟩
  intro call hcall g
  simp only [greeting, List.cons_append, List.mem_cons, List.mem_append, List.mem_replicate,
    List.not_mem_nil, or_false] at hcall
  rcases hcall with rfl | ⟨-, rfl⟩ | rfl
  · exact fun _ _ ↦ by decide
  · trivial
  · trivial

/-- A string of 256 characters leaves its first destination. -/
theorem bodiesSurvive_false : ¬ ∀ (image : KernelImage) (k : Kernel Pointers)
    (calls : List BodyCall), k.RingsEmpty → @Mailboxes.RunOk image calls (.start k) := by
  intro hclaim
  let _ := someImage
  let long : CString :=
    ⟨List.replicate MAX_MESSAGES_BODY_SIZE 0x61, fun _ hc ↦
      by rw [List.eq_of_mem_replicate hc]; decide⟩
  have hrun : trioStart.any (fun k ↦ k.searchProcess 2 = some (.page 1)) = true := by
    decide +kernel
  obtain ⟨k, hk, hfound⟩ := (Option.any_eq_true _ _).mp hrun
  have hok := (bodiesSurvive_iff (trioStart_ringsEmpty hk) [.send 2 long unwritten]).mp
    (hclaim someImage k _ (trioStart_ringsEmpty hk))
  have hlt := (hok trivial).1 (.page 1) (of_decide_eq_true hfound)
  rw [List.length_replicate] at hlt
  exact Nat.lt_irrefl _ hlt

end DemosOS
