import DemosOS.Console.Receive

/-!
# The lines of the console

A reference line editor, and a reader that refines it.  The stream of accepted bytes is cut
into segments, each up to the byte that ends it; the calls of `syscall_input` that return take
the segments in order, and each leaves in its buffer what the reference editor makes of its
segment.

| part of the stream  | where it is                                     |
|---------------------|-------------------------------------------------|
| complete segments   | taken by the calls that have returned           |
| `keys`              | handled by the call that is running             |
| `inFlight`          | taken out of the ring, not handled yet          |
| `held`              | in the ring                                     |
-/

namespace DemosOS

open Lib

/-! ## The reference editor -/

/-- One key, in a line of at most `n` characters. -/
def editKey (n : Nat) (text : List UInt8) (c : UInt8) : List UInt8 :=
  if c = DELETE then text.dropLast else if text.length < n then text ++ [c] else text

/-- The line after the given keys. -/
def editLine (n : Nat) (keys : List UInt8) : List UInt8 := keys.foldl (editKey n) []

theorem editLine_concat (n : Nat) (keys : List UInt8) (c : UInt8) :
    editLine n (keys ++ [c]) = editKey n (editLine n keys) c := by
  rw [editLine, List.foldl_append]
  rfl

theorem editKey_length_le {n : Nat} {text : List UInt8} (h : text.length ≤ n) (c : UInt8) :
    (editKey n text c).length ≤ n := by
  unfold editKey
  split_ifs
  · exact (List.length_dropLast ▸ Nat.sub_le _ _ : text.dropLast.length ≤ text.length).trans h
  · rw [List.length_append, List.length_singleton]
    omega
  · exact h

/-- The editor never holds more than its capacity. -/
theorem editLine_length_le (n : Nat) (keys : List UInt8) : (editLine n keys).length ≤ n := by
  induction keys using List.reverseRecOn with
  | nil => exact Nat.zero_le _
  | append_singleton keys c ih =>
      rw [editLine_concat]
      exact editKey_length_le ih c

/-- A part of the stream up to a byte that ends a line. -/
structure Segment where
  keys : List UInt8
  terminator : UInt8
  inner : ∀ c ∈ keys, ¬ EndsLine c
  ends : EndsLine terminator

def Segment.bytes (segment : Segment) : List UInt8 := segment.keys ++ [segment.terminator]

/-! ## A call and its buffer -/

/-- The length for which the editor is run. -/
def InputCall.capacity (call : InputCall) : Nat := (call.len - 1).toNat

/-- The buffer of a call holds what the editor makes of the given keys, and nothing from
`len` on has been written. -/
structure Line.Edited (line : Line) (keys : List UInt8) : Prop where
  positive : 1 ≤ line.call.len
  length : line.currentLen = (editLine line.call.capacity keys).length
  text : ∀ i c, (editLine line.call.capacity keys)[i]? = some c → line.buffer i = c
  outside : ∀ i : Nat, line.call.len ≤ i → line.buffer i = line.call.initial i

namespace Line.Edited

variable {line : Line} {keys : List UInt8} {c : UInt8}

theorem start {call : InputCall} (h : 1 ≤ call.len) : call.start.Edited [] where
  positive := h
  length := rfl
  text := by simp [editLine]
  outside _ _ := rfl

theorem currentLen_le (h : line.Edited keys) : line.currentLen ≤ line.call.capacity :=
  h.length ▸ editLine_length_le _ _

theorem currentLen_lt (h : line.Edited keys) : line.currentLen < line.call.len := by
  have hle := h.currentLen_le
  have hpos := h.positive
  unfold InputCall.capacity at hle
  omega

/-- The test for room in the buffer. -/
theorem maxLen_iff (h : line.Edited keys) :
    line.currentLen < line.call.maxLen ↔ line.currentLen < line.call.capacity := by
  have hpos := h.positive
  unfold InputCall.maxLen InputCall.capacity
  rw [if_pos (by omega)]
  omega

/-- A byte that does not end the line. -/
theorem edit (h : line.Edited keys) (c : UInt8) : (line.edit c).Edited (keys ++ [c]) := by
  have hpos := h.positive
  have hlen := h.length
  have hlt := h.currentLen_lt
  have hout : ∀ (i : Nat) (x : UInt8) (j : Nat), j < line.call.len → line.call.len ≤ i →
      Function.update line.buffer j x i = line.call.initial i := by
    intro i x j hj hi
    rw [Function.update_of_ne (by omega)]
    exact h.outside i hi
  unfold Line.edit
  split_ifs with hdelete hheld hroom
  · refine ⟨hpos, ?_, fun i x hx ↦ ?_, fun i hi ↦ ?_⟩
    · show line.currentLen - 1 = (editLine line.call.capacity (keys ++ [c])).length
      rw [editLine_concat, editKey, if_pos hdelete, List.length_dropLast, ← hlen]
    · have hx : (editLine line.call.capacity (keys ++ [c]))[i]? = some x := hx
      rw [editLine_concat, editKey, if_pos hdelete] at hx
      show Function.update line.buffer (line.currentLen - 1) 0 i = x
      have hi := (List.getElem?_eq_some_iff.mp hx).1
      rw [List.length_dropLast, ← hlen] at hi
      rw [Function.update_of_ne (by omega)]
      refine h.text i x ?_
      rwa [List.getElem?_dropLast, if_pos (by omega)] at hx
    · show Function.update line.buffer (line.currentLen - 1) 0 i = line.call.initial i
      exact hout i _ _ (by omega) hi
  · -- there is nothing to delete
    have hnil : editLine line.call.capacity keys = [] :=
      List.length_eq_zero_iff.mp (by omega)
    have hsame : editLine line.call.capacity (keys ++ [c]) = editLine line.call.capacity keys := by
      rw [editLine_concat, editKey, if_pos hdelete, hnil, List.dropLast_nil]
    exact ⟨hpos, by rw [hsame, hlen], fun i x hx ↦ h.text i x (by rwa [hsame] at hx), h.outside⟩
  · have hroom' := h.maxLen_iff.mp hroom
    have hnext : editLine line.call.capacity (keys ++ [c]) =
        editLine line.call.capacity keys ++ [c] := by
      rw [editLine_concat, editKey, if_neg hdelete, if_pos (by omega)]
    refine ⟨hpos, ?_, fun i x hx ↦ ?_, fun i hi ↦ ?_⟩
    · show line.currentLen + 1 = (editLine line.call.capacity (keys ++ [c])).length
      rw [hnext, List.length_append, List.length_singleton, ← hlen]
    · have hx : (editLine line.call.capacity (keys ++ [c]))[i]? = some x := hx
      rw [hnext] at hx
      show Function.update (Function.update line.buffer line.currentLen c)
        (line.currentLen + 1) 0 i = x
      have hi := (List.getElem?_eq_some_iff.mp hx).1
      rw [List.length_append, List.length_singleton, ← hlen] at hi
      rw [Function.update_of_ne (by omega)]
      rcases Nat.lt_or_eq_of_le (Nat.le_of_lt_succ hi) with hi | rfl
      · rw [Function.update_of_ne (by omega)]
        refine h.text i x ?_
        rwa [List.getElem?_append_left (by omega)] at hx
      · rw [Function.update_self]
        rw [hlen, List.getElem?_concat_length] at hx
        exact Option.some.inj hx
    · -- the terminating zero is still within the buffer
      have hcap : line.currentLen + 1 < line.call.len := by
        unfold InputCall.capacity at hroom'
        omega
      show Function.update (Function.update line.buffer line.currentLen c)
        (line.currentLen + 1) 0 i = line.call.initial i
      have hi : line.call.len ≤ i := hi
      rw [Function.update_of_ne (by omega)]
      exact hout i _ _ hlt hi
  · have hfull := mt h.maxLen_iff.mpr hroom
    have hsame : editLine line.call.capacity (keys ++ [c]) = editLine line.call.capacity keys := by
      rw [editLine_concat, editKey, if_neg hdelete, if_neg (by omega)]
    exact ⟨hpos, by rw [hsame, hlen], fun i x hx ↦ h.text i x (by rwa [hsame] at hx), h.outside⟩

end Line.Edited

/-- A call has returned the given segment: its value is the length of the edited line, its
buffer holds that line and a zero, and nothing from `len` on has been written. -/
structure Segment.Delivered (segment : Segment) (r : InputReturn) : Prop where
  value : r.value = (editLine r.line.call.capacity segment.keys).length
  text : ∀ i c, (editLine r.line.call.capacity segment.keys)[i]? = some c → r.line.buffer i = c
  terminated : r.line.buffer (editLine r.line.call.capacity segment.keys).length = 0
  fits : (editLine r.line.call.capacity segment.keys).length < r.line.call.len
  outside : ∀ i : Nat, r.line.call.len ≤ i → r.line.buffer i = r.line.call.initial i

/-- The end of a line. -/
theorem Line.Edited.finish {line : Line} {segment : Segment} (h : line.Edited segment.keys)
    (p : PcbPtr) : segment.Delivered ⟨p, line.finish.currentLen, line.finish⟩ := by
  have hlen := h.length
  have hlt := h.currentLen_lt
  refine ⟨?_, fun i c hc ↦ ?_, ?_, ?_, fun i hi ↦ ?_⟩
  · show (line.currentLen : Int) = (editLine line.call.capacity segment.keys).length
    rw [hlen]
  · have hc : (editLine line.call.capacity segment.keys)[i]? = some c := hc
    have hi := (List.getElem?_eq_some_iff.mp hc).1
    show Function.update line.buffer line.currentLen 0 i = c
    rw [Function.update_of_ne (by omega)]
    exact h.text i c hc
  · show Function.update line.buffer line.currentLen 0
      (editLine line.call.capacity segment.keys).length = 0
    rw [← hlen, Function.update_self]
  · show ((editLine line.call.capacity segment.keys).length : Int) < line.call.len
    rwa [← hlen]
  · show Function.update line.buffer line.currentLen 0 i = line.call.initial i
    have hi : line.call.len ≤ i := hi
    rw [Function.update_of_ne (by omega)]
    exact h.outside i hi

/-! ## The reader -/

namespace InputPoint

/-- The state of the call that is running. -/
def line? : InputPoint → Option Line
  | user => none
  | testingOwner line | waitingOwner line | claiming line | testingRing line | blocking line
  | sleeping line | draining line | fetching line | advancing line _ | editing line _ => some line

/-- What has been taken out of the ring and is not handled yet. -/
def inFlight : InputPoint → List UInt8
  | editing _ c => [c]
  | _ => []

/-- What the point says about the bytes in the ring. -/
def Reads (held : List UInt8) : InputPoint → Prop
  | fetching _ => held ≠ []
  | advancing _ c => ∃ rest, held = c :: rest
  | _ => True

/-- Bytes that arrive do not change the next one. -/
theorem Reads.append {point : InputPoint} {held : List UInt8} (h : point.Reads held)
    (bytes : List UInt8) : point.Reads (held ++ bytes) := by
  cases point with
  | fetching line => exact List.append_ne_nil_of_left_ne_nil h _
  | advancing line c =>
      obtain ⟨rest, rfl⟩ := h
      exact ⟨rest ++ bytes, rfl⟩
  | user | testingOwner | waitingOwner | claiming | testingRing | blocking | sleeping | draining
  | editing => trivial

end InputPoint

/-- How the accepted bytes are divided between the calls that have returned, the call that is
running and the ring. -/
structure LinesDelivered (s : Console) (point : InputPoint) (segments : List Segment)
    (keys held : List UInt8) : Prop where
  stream : s.accepted = segments.flatMap Segment.bytes ++ keys ++ point.inFlight ++ held
  returned : List.Forall₂ Segment.Delivered segments s.returned
  inner : ∀ c ∈ keys, ¬ EndsLine c
  idle : point = .user → keys = []
  line : ∀ line, point.line? = some line → line.Edited keys
  ring : s.kernel.uart.Holds held
  reads : point.Reads held

namespace LinesDelivered

variable {s s' : Console} {point l : InputPoint} {segments : List Segment}
  {keys held : List UInt8}

/-- The rest of the kernel. -/
theorem withKernel (h : LinesDelivered s point segments keys held) {k : Kernel Pointers}
    (huart : k.uart = s.kernel.uart) :
    LinesDelivered (s.withKernel k) point segments keys held := by
  have hring : k.uart.Holds held := huart ▸ h.ring
  exact { h with ring := hring }

/-- Bytes arrive. -/
theorem uartIrq (h : LinesDelivered s point segments keys held) {mis : BitVec 32}
    {fifo : List (BitVec 32)} (hs : s.handleUartIrq mis fifo = some s') :
    LinesDelivered s' point segments keys
      (held ++ s.kernel.uart.accepts (received mis fifo)) := by
  obtain ⟨⟨rest, k⟩, hk, rfl⟩ := Option.map_eq_some_iff.mp hs
  refine { h with stream := ?_, ring := ?_, reads := h.reads.append _ }
  · rw [← List.append_assoc, ← h.stream]
  · show k.uart.Holds _
    rw [(Kernel.handleUartIrq_spec hk).uart]
    exact h.ring.storeAll _

/-- A step that handles no byte. -/
theorem move (h : LinesDelivered s point segments keys held) {line : Line}
    (hpoint : point.line? = some line) (hl : l.line? = some line)
    (hflight : point.inFlight = []) (hflight' : l.inFlight = []) (hreads : l.Reads held) :
    LinesDelivered s l segments keys held where
  stream := by rw [hflight', ← hflight, ← h.stream]
  returned := h.returned
  inner := h.inner
  idle := by
    rintro rfl
    simp [InputPoint.line?] at hl
  line line' hline' := by
    obtain rfl := Option.some.inj (hl.symm.trans hline')
    exact h.line _ hpoint
  ring := h.ring
  reads := hreads

/-- A write to a variable that is not part of the ring. -/
theorem setOwner (h : LinesDelivered s point segments keys held) (owner : Option PcbPtr) :
    LinesDelivered (s.mapUart fun u ↦ { u with owner := owner }) point segments keys held :=
  { h with ring := h.ring.setOwner owner }

/-- A byte leaves the ring. -/
theorem advance {line : Line} {c : UInt8}
    (h : LinesDelivered s (.advancing line c) segments keys held) : ∃ rest,
    LinesDelivered (s.mapUart fun u ↦ { u with tail := (u.tail + 1) % UART_BUFFER_SIZE })
      (.editing line c) segments keys rest := by
  obtain ⟨rest, rfl⟩ := h.reads
  refine ⟨rest, { h with stream := ?_, idle := nofun, line := ?_, ring := ?_, reads := trivial }⟩
  · refine h.stream.trans ?_
    simp [InputPoint.inFlight]
  · exact h.line
  · exact h.ring.pop.2

/-- A byte is handled that does not end the line. -/
theorem edit {line : Line} {c : UInt8}
    (h : LinesDelivered s (.editing line c) segments keys held) (hends : ¬ EndsLine c) :
    LinesDelivered s (.draining (line.edit c)) segments (keys ++ [c]) held where
  stream := by
    refine h.stream.trans ?_
    simp [InputPoint.inFlight]
  returned := h.returned
  inner b hb := by
    rcases List.mem_append.mp hb with hb | hb
    · exact h.inner b hb
    · rwa [List.mem_singleton.mp hb]
  idle := nofun
  line line' hline' := by
    obtain rfl := Option.some.inj hline'
    exact (h.line line rfl).edit c
  ring := h.ring
  reads := trivial

/-- A byte is handled that ends the line: the call returns with its segment. -/
theorem finish {line : Line} {c : UInt8}
    (h : LinesDelivered s (.editing line c) segments keys held) (hends : EndsLine c) (p : PcbPtr) :
    LinesDelivered { s with returned := s.returned ++
      [⟨p, line.finish.currentLen, line.finish⟩] } .user
      (segments ++ [⟨keys, c, h.inner, hends⟩]) [] held where
  stream := by
    refine h.stream.trans ?_
    simp [InputPoint.inFlight, Segment.bytes]
  returned := by
    have hedited : line.Edited (Segment.mk keys c h.inner hends).keys := h.line line rfl
    exact List.rel_append h.returned (.cons (hedited.finish p) .nil)
  inner := by simp
  idle _ := rfl
  line := by simp [InputPoint.line?]
  ring := h.ring
  reads := trivial

/-- A step in the code of `syscall_input`. -/
theorem inputStep (h : LinesDelivered s point segments keys held)
    (hstep : DemosOS.inputStep s point = some (s', l)) :
    ∃ segments keys held, LinesDelivered s' l segments keys held := by
  cases inputStep_move hstep with
  | owned line => exact ⟨_, _, _, h.move (l := .waitingOwner line) rfl rfl rfl rfl trivial⟩
  | free line => exact ⟨_, _, _, h.move (l := .claiming line) rfl rfl rfl rfl trivial⟩
  | empty line => exact ⟨_, _, _, h.move (l := .blocking line) rfl rfl rfl rfl trivial⟩
  | nonempty line => exact ⟨_, _, _, h.move (l := .draining line) rfl rfl rfl rfl trivial⟩
  | drained line => exact ⟨_, _, _, h.move (l := .testingRing line) rfl rfl rfl rfl trivial⟩
  | retry line k hk =>
      have hmove := h.move (l := .testingOwner line) rfl rfl rfl rfl trivial
      exact ⟨_, _, _, hmove.withKernel (Aloof.schedule hk).uart⟩
  | sleep line k hk =>
      have hmove := h.move (l := .testingRing line) rfl rfl rfl rfl trivial
      exact ⟨_, _, _, hmove.withKernel (Aloof.schedule hk).uart⟩
  | claim line =>
      have hmove := h.move (l := .testingRing line) rfl rfl rfl rfl trivial
      exact ⟨_, _, _, hmove.setOwner _⟩
  | mark line =>
      have hmove := h.move (l := .sleeping line) rfl rfl rfl rfl trivial
      exact ⟨_, _, _, hmove.withKernel rfl⟩
  | more line hne =>
      obtain ⟨rest, hrest⟩ := h.ring.eq_cons hne
      have hreads : held ≠ [] := by simp [hrest]
      exact ⟨_, _, _, h.move rfl rfl rfl rfl hreads⟩
  | fetch line =>
      have hne : s.kernel.uart.tail ≠ s.kernel.uart.head := fun he ↦
        h.reads (h.ring.empty_iff.mp he.symm)
      exact ⟨_, _, _, h.move rfl rfl rfl rfl (h.ring.eq_cons hne)⟩
  | advance line c =>
      obtain ⟨rest, hrest⟩ := h.advance
      exact ⟨_, _, _, hrest⟩
  | finish line c hends => exact ⟨_, _, _, (h.finish hends _).setOwner none⟩
  | edit line c hends => exact ⟨_, _, _, h.edit hends⟩

end LinesDelivered

/-! ## Runs -/

/-- Only one process reads from the console, with a buffer of at least one byte. -/
def OnlyReader (r : PcbPtr) (e : Event InputChoice) (c : InputConfig) : Prop :=
  match e with
  | .act (.input call) => c.shared.kernel.currentProcess = r ∧ 1 ≤ call.len
  | _ => True

instance (r : PcbPtr) (e : Event InputChoice) (c : InputConfig) : Decidable (OnlyReader r e c) :=
  match e with
  | .act (.input _) => inferInstanceAs (Decidable (_ ∧ _))
  | .interrupt | .act .proceed | .act (.call _) | .act (.uartIrq ..) => isTrue trivial

/-- What holds between any two steps: everybody else is in user code. -/
structure ReaderInv (r : PcbPtr) (c : InputConfig) : Prop where
  others : ∀ p, p ≠ r → c.point p = .user
  delivered : ∃ segments keys held, LinesDelivered c.shared (c.point r) segments keys held

namespace ReaderInv

variable {r : PcbPtr} {c : InputConfig} {s : Console} {l : InputPoint}

/-- The running process stays where it is. -/
theorem stay (h : ReaderInv r c) (hs : ∃ segments keys held,
    LinesDelivered s (c.point r) segments keys held) : ReaderInv r ⟨s, c.point⟩ :=
  ⟨h.others, hs⟩

/-- The reader moves. -/
theorem move (h : ReaderInv r c) (hs : ∃ segments keys held,
    LinesDelivered s l segments keys held) :
    ReaderInv r ⟨s, Function.update c.point r l⟩ where
  others p hp := by
    show Function.update c.point r l p = .user
    rw [Function.update_of_ne hp]
    exact h.others p hp
  delivered := by
    show ∃ segments keys held, LinesDelivered s (Function.update c.point r l r) segments keys held
    rwa [Function.update_self]

/-- Whatever happens next. -/
theorem inputAct [KernelImage] (h : ReaderInv r c) {choice : InputChoice}
    (henabled : choice.Enabled c.shared) (honly : OnlyReader r (.act choice) c)
    (hact : DemosOS.inputAct choice c.shared (c.point c.shared.kernel.currentProcess) =
      some (s, l)) : ReaderInv r ⟨s, Function.update c.point c.shared.kernel.currentProcess l⟩ := by
  obtain ⟨segments, keys, held, hlines⟩ := h.delivered
  generalize hpoint : c.point c.shared.kernel.currentProcess = point at hact
  unfold DemosOS.inputAct at hact
  split at hact
  · obtain ⟨s₁, hs₁, hr⟩ := Option.map_eq_some_iff.mp hact
    obtain ⟨rfl, rfl⟩ := Prod.mk.inj hr
    rw [← hpoint, Function.update_eq_self]
    exact h.stay ⟨_, _, _, hlines.uartIrq hs₁⟩
  · obtain ⟨k, hk, hr⟩ := Option.map_eq_some_iff.mp hact
    obtain ⟨rfl, rfl⟩ := Prod.mk.inj hr
    rw [← hpoint, Function.update_eq_self]
    exact h.stay ⟨_, _, _, hlines.withKernel (Aloof.activity henabled hk).uart⟩
  · rename_i call
    obtain ⟨hreader, hlen⟩ := honly
    split_ifs at hact
    obtain ⟨rfl, rfl⟩ := Prod.mk.inj (Option.some.inj hact)
    rw [hreader] at hpoint ⊢
    rw [hpoint] at hlines
    obtain rfl := hlines.idle rfl
    refine h.move ⟨segments, [], held, { hlines with idle := nofun, line := ?_ }⟩
    rintro line hline
    obtain rfl := Option.some.inj hline
    exact .start hlen
  · -- only the reader is in the code of `syscall_input`
    have hreader : c.shared.kernel.currentProcess = r := by
      by_contra hne
      rw [← hpoint, h.others _ hne] at hact
      simp [DemosOS.inputStep] at hact
    rw [hreader] at hpoint ⊢
    rw [hpoint] at hlines
    exact h.move (hlines.inputStep hact)
  · simp at hact

end ReaderInv

/-- In every run from boot in which only one process reads, the accepted bytes are, in order,
the segments delivered by the calls that have returned, the keys handled by the call that is
running, the byte it has taken out, and the bytes in the ring, which takes a byte as long as
it holds fewer than it has cells less one. -/
theorem linesDelivered_of_onlyReader [KernelImage] {algorithm : Algorithm}
    {timerClo : Nat → BitVec 32} {r : PcbPtr} {c : InputConfig}
    (hrun : Relation.ReflTransGen (inputMachine.Step fun e c ↦
      InputEnabled e c ∧ OnlyReader r e c) (inputBoot algorithm timerClo) c) :
    ∃ segments keys held, LinesDelivered c.shared (c.point r) segments keys held ∧
      held.length ≤ UART_BUFFER_SIZE - 1 ∧
      (c.shared.kernel.uart.HasRoom ↔ held.length < UART_BUFFER_SIZE - 1) := by
  have hinv : ReaderInv r c := by
    refine Machine.invariant (I := ReaderInv r) ?_ ?_ hrun ?_
    · rintro c choice s l h ⟨henabled, honly⟩ hact
      exact h.inputAct henabled honly hact
    · rintro c s h - hs
      obtain ⟨k, hk, rfl⟩ := Option.map_eq_some_iff.mp hs
      obtain ⟨segments, keys, held, hlines⟩ := h.delivered
      have huart := (Aloof.scheduled (Kernel.scheduled_handleTimerTick hk)).uart
      exact h.stay ⟨_, _, _, hlines.withKernel huart⟩
    · refine ⟨fun _ _ ↦ rfl, [], [], [], rfl, .nil, by simp, fun _ ↦ rfl, ?_, ?_, trivial⟩
      · simp [inputBoot, InputPoint.line?]
      · exact Ring.Represents.nil (show 0 < UART_BUFFER_SIZE by decide)
  obtain ⟨segments, keys, held, hlines⟩ := hinv.delivered
  exact ⟨segments, keys, held, hlines, hlines.ring.length_le, hlines.ring.hasRoom_iff⟩

/-- A call with room for three characters, and a line in which one is deleted and one does not
fit. -/
def shortLine : List (Event InputChoice) :=
  .act (.input ⟨4, fun _ ↦ 0xFF⟩) :: List.replicate 5 (.act .proceed) ++
    [.act (.uartIrq (1 <<< 4) [0x61, 0x62, 0x7F, 0x63, 0x64, 0x65, 0x0D]),
      .act (.call (.op .yield))] ++ List.replicate 29 (.act .proceed)

/-- The call returns with the three characters that are left. -/
theorem linesDelivered_shortLine : let _ := someImage
    ∃ k c, runAll readersStart (Kernel.boot .roundRobin fun _ ↦ 0) = some k ∧
      inputMachine.run (fun e c ↦ SimpleEvent e c ∧ OnlyReader (.page 0) e c) shortLine
        ⟨⟨k, [], []⟩, fun _ ↦ .user⟩ = some c ∧
      (c.shared.returned.map fun r ↦ (r.value, (List.range 5).map r.line.buffer)) =
        [(3, [0x61, 0x63, 0x64, 0, 0xFF])] ∧
      ∃ segments keys held, LinesDelivered c.shared (c.point (.page 0)) segments keys held ∧
        held.length ≤ UART_BUFFER_SIZE - 1 ∧
        (c.shared.kernel.uart.HasRoom ↔ held.length < UART_BUFFER_SIZE - 1) := by
  intro _
  obtain ⟨k, hk, hstart⟩ := readersStart_spec
    (fun e c ↦ InputEnabled e c ∧ OnlyReader (.page 0) e c) fun _ _ _ henabled ↦ ⟨henabled, trivial⟩
  have hrun : (runAll readersStart (Kernel.boot .roundRobin fun _ ↦ 0)).all (fun k ↦
      (inputMachine.run (fun e c ↦ SimpleEvent e c ∧ OnlyReader (.page 0) e c) shortLine
        ⟨⟨k, [], []⟩, fun _ ↦ .user⟩).any fun c ↦
          (c.shared.returned.map fun r ↦ (r.value, (List.range 5).map r.line.buffer)) =
            [(3, [0x61, 0x63, 0x64, 0, 0xFF])]) = true := by
    decide +kernel
  rw [hk, Option.all_some] at hrun
  obtain ⟨c, hc, hprop⟩ := (Option.any_eq_true _ _).mp hrun
  have hsteps := inputSteps_of_run
    (fun e c (h : SimpleEvent e c ∧ OnlyReader (.page 0) e c) ↦
      (⟨inputEnabled_of_simple h.1, h.2⟩ : InputEnabled e c ∧ OnlyReader (.page 0) e c)) hc
  exact ⟨k, c, hk, hc, of_decide_eq_true hprop, linesDelivered_of_onlyReader (hstart.trans hsteps)⟩

end DemosOS
