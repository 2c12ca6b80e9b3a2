import Mathlib.Data.BitVec
import Mathlib.Logic.Function.Basic

/-!
# A fragment of A64

The instructions of 64-bit ARM that loops over bytes are written with: loads and stores that move
the base register, additions and subtractions with and without flags, and branches.  A program is
the text of an assembler file, labels included, so that a routine can run into the one behind it.

Every address is taken to be mapped, and an access of eight bytes need not be aligned.
-/

namespace DemosOS.Lib.A64

/-! ## Memory -/

abbrev Memory := BitVec 64 → BitVec 8

/-- `n` bytes from `p` on are overwritten; addresses wrap around. -/
def fill (m : Memory) (p : BitVec 64) (n : Nat) (v : Nat → BitVec 8) : Memory := fun a ↦
  if (a - p).toNat < n then v (a - p).toNat else m a

section

variable {m : Memory} {p : BitVec 64} {v v' : Nat → BitVec 8} {n k : Nat}

@[simp] theorem fill_zero : fill m p 0 v = m := rfl

theorem add_ofNat_add (p : BitVec 64) (n k : Nat) :
    p + BitVec.ofNat 64 n + BitVec.ofNat 64 k = p + BitVec.ofNat 64 (n + k) := by
  rw [BitVec.add_assoc, ← BitVec.ofNat_add]

theorem toNat_add_ofNat_sub {i : Nat} (hi : i < 2 ^ 64) :
    (p + BitVec.ofNat 64 i - p).toNat = i := by
  rw [BitVec.add_comm, BitVec.add_sub_cancel, BitVec.toNat_ofNat, Nat.mod_eq_of_lt hi]

theorem fill_of_lt {i : Nat} (hi : i < n) (hn : n ≤ 2 ^ 64) :
    fill m p n v (p + BitVec.ofNat 64 i) = v i := by
  rw [fill, toNat_add_ofNat_sub (by omega), if_pos hi]

theorem fill_of_le {i : Nat} (hi : n ≤ i) (hlt : i < 2 ^ 64) :
    fill m p n v (p + BitVec.ofNat 64 i) = m (p + BitVec.ofNat 64 i) := by
  rw [fill, toNat_add_ofNat_sub hlt, if_neg (Nat.not_lt.mpr hi)]

/-- An address that is not one of the range. -/
theorem fill_of_ne {a : BitVec 64} (h : ∀ i < n, p + BitVec.ofNat 64 i ≠ a) :
    fill m p n v a = m a := by
  refine if_neg fun hlt ↦ h _ hlt ?_
  rw [BitVec.ofNat_toNat, BitVec.setWidth_eq, BitVec.add_comm, BitVec.sub_add_cancel]

theorem fill_congr (h : ∀ i < n, v i = v' i) : fill m p n v = fill m p n v' := by
  funext a
  unfold fill
  split_ifs with ha
  · exact h _ ha
  · rfl

/-- Two ranges, one behind the other. -/
theorem fill_fill (h : n + k ≤ 2 ^ 64) :
    fill (fill m p n v) (p + BitVec.ofNat 64 n) k (fun i ↦ v (n + i)) = fill m p (n + k) v := by
  funext a
  have hsub : (a - (p + BitVec.ofNat 64 n)).toNat =
      (2 ^ 64 - n % 2 ^ 64 + (a - p).toNat) % 2 ^ 64 := by
    have hassoc : a - (p + BitVec.ofNat 64 n) = a - p - BitVec.ofNat 64 n := by
      rw [BitVec.sub_eq_add_neg, BitVec.neg_add, BitVec.sub_eq_add_neg, BitVec.sub_eq_add_neg,
        BitVec.sub_eq_add_neg, BitVec.add_assoc]
    rw [hassoc, BitVec.toNat_sub, BitVec.toNat_ofNat]
  have ha : (a - p).toNat < 2 ^ 64 := (a - p).isLt
  unfold fill
  by_cases hn : (a - p).toNat < n
  · rw [if_neg (by omega), if_pos hn, if_pos (by omega)]
  · have hrest : (a - (p + BitVec.ofNat 64 n)).toNat = (a - p).toNat - n := by omega
    rw [hrest, if_neg hn]
    by_cases hk : (a - p).toNat < n + k
    · have hlt : (a - p).toNat - n < k := by omega
      rw [if_pos hlt, if_pos hk]
      exact congrArg v (Nat.add_sub_cancel' (Nat.not_lt.mp hn))
    · have hge : ¬ (a - p).toNat - n < k := by omega
      rw [if_neg hge, if_neg hk]

/-- Overwriting more makes no difference where memory holds the bytes already. -/
theorem fill_eq_fill_iff (hnk : n ≤ k) (hk : k ≤ 2 ^ 64) :
    fill m p k v = fill m p n v ↔ ∀ i, n ≤ i → i < k → m (p + BitVec.ofNat 64 i) = v i := by
  constructor
  · intro h i hni hik
    have hi := congrFun h (p + BitVec.ofNat 64 i)
    rw [fill_of_lt hik hk, fill_of_le hni (by omega)] at hi
    exact hi.symm
  · intro h
    funext a
    unfold fill
    split_ifs with hka hna hna
    · rfl
    · have hi := h (a - p).toNat (by omega) hka
      rw [BitVec.ofNat_toNat, BitVec.setWidth_eq, BitVec.add_comm, BitVec.sub_add_cancel] at hi
      exact hi.symm
    · omega
    · rfl

end

/-! ## Instructions -/

/-- The registers `x0` to `x30`. -/
abbrev Reg := Fin 31

/-- For the numbers of registers. -/
instance neZeroRegisters : NeZero 31 := ⟨by decide⟩

/-- The lower half of a register or the whole of it, as `w0` and `x0`. -/
inductive Width
  | w
  | x
deriving DecidableEq, Repr

/-- What an instruction of this width sees of a value, and leaves of a result. -/
def Width.trunc : Width → BitVec 64 → BitVec 64
  | w, v => (v.setWidth 32).setWidth 64
  | x, v => v

@[simp] theorem Width.trunc_x (v : BitVec 64) : Width.x.trunc v = v := rfl

@[simp] theorem Width.trunc_trunc (width : Width) (v : BitVec 64) :
    width.trunc (width.trunc v) = width.trunc v := by
  cases width with
  | w => rw [trunc, trunc, BitVec.setWidth_setWidth_of_le (v.setWidth 32) (by decide),
      BitVec.setWidth_eq]
  | x => rfl

inductive Operand
  | imm (n : Nat)
  | reg (r : Reg)
deriving DecidableEq, Repr

inductive Instr (L : Type)
  | /-- `str xzr, [base], #step`. -/
    strZeroPost (base : Reg) (step : Nat)
  | /-- `strb src, [base], #step`. -/
    strbPost (src base : Reg) (step : Nat)
  | /-- `strb src, [base]`. -/
    strb (src base : Reg)
  | /-- `ldrb dst, [base], #step`. -/
    ldrbPost (dst base : Reg) (step : Nat)
  | mov (width : Width) (dst : Reg) (value : Operand)
  | add (width : Width) (dst left : Reg) (right : Operand)
  | sub (width : Width) (dst left : Reg) (right : Operand)
  | subs (width : Width) (dst left : Reg) (right : Operand)
  | cbz (width : Width) (r : Reg) (target : L)
  | cbnz (width : Width) (r : Reg) (target : L)
  | b (target : L)
  | bgt (target : L)
  | ret
deriving DecidableEq, Repr

structure Flags where
  n : Bool
  z : Bool
  c : Bool
  v : Bool
deriving DecidableEq, Repr

namespace Flags

/-- The flags of a comparison. -/
def ofSub {w : Nat} (left right : BitVec w) : Flags where
  n := (left - right).msb
  z := left - right = 0#w
  c := right.ule left
  v := left.ssubOverflow right

/-- The flags of `subs`. -/
def ofSubs (left right : BitVec 64) : Width → Flags
  | .w => ofSub (left.setWidth 32) (right.setWidth 32)
  | .x => ofSub left right

/-- The condition `gt`. -/
def gt (f : Flags) : Bool := !f.z && f.n == f.v

/-- After a comparison `gt` says which number is greater, both taken as signed. -/
theorem gt_ofSub {w : Nat} (left right : BitVec w) :
    (ofSub left right).gt = right.slt left := by
  have hzero : left - right = 0#w ↔ left = right := by
    rw [BitVec.sub_eq_iff_eq_add, BitVec.zero_add]
  rw [Bool.eq_iff_iff, BitVec.slt_iff_toInt_lt]
  simp only [gt, ofSub, Bool.and_eq_true, Bool.not_eq_true', decide_eq_false_iff_not, beq_iff_eq,
    hzero, ← BitVec.toInt_inj]
  by_cases hv : left.ssubOverflow right = true
  · -- the signs differ, and the sign of the difference is wrong
    have hsigns := BitVec.ssubOverflow_eq left right
    have hleft := BitVec.msb_eq_toInt (x := left)
    have hright := BitVec.msb_eq_toInt (x := right)
    rw [hv] at hsigns ⊢
    simp only [Eq.comm (a := true), Bool.or_eq_true, Bool.and_eq_true, Bool.not_eq_true'] at hsigns
    obtain ⟨⟨hl, hr⟩, hd⟩ | ⟨⟨hl, hr⟩, hd⟩ := hsigns
    · rw [hl, eq_comm, decide_eq_false_iff_not] at hleft
      rw [hr, eq_comm, decide_eq_true_iff] at hright
      simp only [hd, and_true]
      omega
    · rw [hl, eq_comm, decide_eq_true_iff] at hleft
      rw [hr, eq_comm, decide_eq_false_iff_not] at hright
      simp only [hd, Bool.false_eq_true, and_false, false_iff]
      omega
  · have hsub := BitVec.toInt_sub_of_not_ssubOverflow hv
    rw [Bool.not_eq_true] at hv
    rw [hv, BitVec.msb_eq_toInt, hsub, decide_eq_false_iff_not]
    omega

/-- A comparison of counters. -/
theorem gt_ofSub_ofNat {w a b : Nat} (ha : 2 * a < 2 ^ w) (hb : 2 * b < 2 ^ w) :
    (ofSub (BitVec.ofNat w a) (BitVec.ofNat w b)).gt = decide (b < a) := by
  have htoInt : ∀ n, 2 * n < 2 ^ w → (BitVec.ofNat w n).toInt = n := by
    intro n hn
    have hmod : (BitVec.ofNat w n).toNat = n := by
      rw [BitVec.toNat_ofNat, Nat.mod_eq_of_lt (by omega)]
    rw [BitVec.toInt_eq_toNat_of_lt (by omega), hmod]
  rw [gt_ofSub, BitVec.slt_eq_decide, htoInt a ha, htoInt b hb]
  simp

theorem gt_ofSubs_x {a b : Nat} (ha : a < 2 ^ 63) (hb : b < 2 ^ 63) :
    (ofSubs (BitVec.ofNat 64 a) (BitVec.ofNat 64 b) .x).gt = decide (b < a) :=
  gt_ofSub_ofNat (by omega) (by omega)

theorem gt_ofSubs_w {a b : Nat} (ha : a < 2 ^ 31) (hb : b < 2 ^ 31) :
    (ofSubs (BitVec.ofNat 64 a) (BitVec.ofNat 64 b) .w).gt = decide (b < a) := by
  rw [ofSubs, BitVec.setWidth_ofNat_of_le (by decide), BitVec.setWidth_ofNat_of_le (by decide)]
  exact gt_ofSub_ofNat (by omega) (by omega)

end Flags

/-! ## Execution -/

/-- `pc` is the number of the next instruction, or nothing behind a `ret`. -/
structure State where
  reg : Reg → BitVec 64
  flags : Flags
  mem : Memory
  pc : Option Nat

namespace State

/-- A register, or its lower half. -/
def get (s : State) (width : Width) (r : Reg) : BitVec 64 := width.trunc (s.reg r)

/-- A write to the lower half clears the upper one. -/
def set (s : State) (width : Width) (r : Reg) (v : BitVec 64) : State :=
  { s with reg := Function.update s.reg r (width.trunc v) }

def value (s : State) : Operand → BitVec 64
  | .imm n => BitVec.ofNat 64 n
  | .reg r => s.reg r

def store (s : State) (base : Reg) (n : Nat) (v : Nat → BitVec 8) : State :=
  { s with mem := fill s.mem (s.reg base) n v }

def advance (s : State) (base : Reg) (step : Nat) : State :=
  { s with reg := Function.update s.reg base (s.reg base + BitVec.ofNat 64 step) }

def compare (s : State) (flags : Flags) : State := { s with flags := flags }

def next (s : State) : State := { s with pc := s.pc.map (· + 1) }

def goto (s : State) (pc : Nat) : State := { s with pc := some pc }

section

variable (s : State) (width : Width) (r r' : Reg) (v : BitVec 64) (n : Nat)

@[simp] theorem get_eq : s.get width r = width.trunc (s.reg r) := rfl

@[simp] theorem value_imm : s.value (.imm n) = BitVec.ofNat 64 n := rfl

@[simp] theorem value_reg : s.value (.reg r) = s.reg r := rfl

@[simp] theorem set_reg : (s.set width r v).reg r' = if r' = r then width.trunc v else s.reg r' :=
  Function.update_apply ..

@[simp] theorem set_mem : (s.set width r v).mem = s.mem := rfl

@[simp] theorem set_pc : (s.set width r v).pc = s.pc := rfl

@[simp] theorem store_reg (f : Nat → BitVec 8) : (s.store r n f).reg = s.reg := rfl

@[simp] theorem store_mem (f : Nat → BitVec 8) : (s.store r n f).mem = fill s.mem (s.reg r) n f :=
  rfl

@[simp] theorem store_pc (f : Nat → BitVec 8) : (s.store r n f).pc = s.pc := rfl

@[simp] theorem advance_reg : (s.advance r n).reg r' =
    if r' = r then s.reg r + BitVec.ofNat 64 n else s.reg r' := Function.update_apply ..

@[simp] theorem advance_mem : (s.advance r n).mem = s.mem := rfl

@[simp] theorem advance_pc : (s.advance r n).pc = s.pc := rfl

@[simp] theorem compare_reg (f : Flags) : (s.compare f).reg = s.reg := rfl

@[simp] theorem compare_mem (f : Flags) : (s.compare f).mem = s.mem := rfl

@[simp] theorem compare_pc (f : Flags) : (s.compare f).pc = s.pc := rfl

@[simp] theorem next_reg : s.next.reg = s.reg := rfl

@[simp] theorem next_mem : s.next.mem = s.mem := rfl

@[simp] theorem next_pc : s.next.pc = s.pc.map (· + 1) := rfl

@[simp] theorem goto_reg : (s.goto n).reg = s.reg := rfl

@[simp] theorem goto_mem : (s.goto n).mem = s.mem := rfl

@[simp] theorem goto_pc : (s.goto n).pc = some n := rfl

end

end State

/-- A line of an assembler file. -/
inductive Line (L : Type)
  | label (l : L)
  | code (i : Instr L)
deriving DecidableEq, Repr

abbrev Text (L : Type) := List (Line L)

namespace Text

variable {L : Type}

def code (t : Text L) : List (Instr L) := t.filterMap fun
  | .label _ => none
  | .code i => some i

variable [DecidableEq L]

/-- The number of the instruction a label stands before. -/
def address (l : L) : Text L → Option Nat
  | [] => none
  | .label l' :: t => if l' = l then some 0 else address l t
  | .code _ :: t => (address l t).map (· + 1)

def branch (t : Text L) (s : State) (taken : Bool) (target : L) : Option State :=
  if taken then (t.address target).map s.goto else some s.next

def exec (t : Text L) (s : State) : Instr L → Option State
  | .strZeroPost base step => some ((s.store base 8 fun _ ↦ 0).advance base step).next
  | .strbPost src base step =>
      some ((s.store base 1 fun _ ↦ (s.reg src).setWidth 8).advance base step).next
  | .strb src base => some (s.store base 1 fun _ ↦ (s.reg src).setWidth 8).next
  | .ldrbPost dst base step =>
      some ((s.set .x dst ((s.mem (s.reg base)).setWidth 64)).advance base step).next
  | .mov width dst value => some (s.set width dst (s.value value)).next
  | .add width dst left right => some (s.set width dst (s.reg left + s.value right)).next
  | .sub width dst left right => some (s.set width dst (s.reg left - s.value right)).next
  | .subs width dst left right =>
      some ((s.set width dst (s.reg left - s.value right)).compare
        (.ofSubs (s.reg left) (s.value right) width)).next
  | .cbz width r target => t.branch s (s.get width r = 0) target
  | .cbnz width r target => t.branch s (s.get width r ≠ 0) target
  | .b target => t.branch s true target
  | .bgt target => t.branch s s.flags.gt target
  | .ret => some { s with pc := none }

def step (t : Text L) (s : State) : Option State := do
  let pc ← s.pc
  let i ← t.code[pc]?
  t.exec s i

def run (t : Text L) : Nat → State → Option State
  | 0, s => some s
  | n + 1, s => do
      let s ← t.step s
      t.run n s

/-- From `s` execution gets to a state in which `Q` holds. -/
def Runs (t : Text L) (s : State) (Q : State → Prop) : Prop :=
  ∃ n s', t.run n s = some s' ∧ Q s'

/-- The routine that is entered in `s` returns, and `Q` holds then. -/
def Returns (t : Text L) (s : State) (Q : State → Prop) : Prop :=
  t.Runs s fun s' ↦ s'.pc = none ∧ Q s'

variable {t : Text L} {s s₁ : State} {Q Q' : State → Prop} {pc a : Nat} {i : Instr L}

theorem step_of_fetch (hpc : s.pc = some pc) (hi : t.code[pc]? = some i) :
    t.step s = t.exec s i := by
  rw [step, hpc, Option.bind_eq_bind, Option.bind_some, hi]
  rfl

theorem step_of_returned (h : s.pc = none) : t.step s = none := by
  rw [step, h]
  rfl

theorem run_succ (t : Text L) (n : Nat) (s : State) : t.run (n + 1) s = (t.step s).bind (t.run n) :=
  rfl

/-! ### Rules -/

theorem Runs.done (h : Q s) : t.Runs s Q := ⟨0, s, rfl, h⟩

/-- One instruction, and what follows. -/
theorem Runs.instr (hpc : s.pc = some pc) (hi : t.code[pc]? = some i)
    (hs : t.exec s i = some s₁) (h : t.Runs s₁ Q) : t.Runs s Q := by
  obtain ⟨n, s', hrun, hQ⟩ := h
  refine ⟨n + 1, s', ?_, hQ⟩
  rw [run_succ, step_of_fetch hpc hi, hs]
  exact hrun

/-- A conditional branch. -/
theorem Runs.branch {taken : Bool} {target : L} (hpc : s.pc = some pc)
    (hi : t.code[pc]? = some i) (hs : t.exec s i = t.branch s taken target)
    (ha : t.address target = some a) (htaken : taken = true → t.Runs (s.goto a) Q)
    (hnext : taken = false → t.Runs s.next Q) : t.Runs s Q := by
  cases taken with
  | true =>
      refine .instr hpc hi (hs.trans ?_) (htaken rfl)
      rw [Text.branch, if_pos rfl, ha]
      rfl
  | false => exact .instr hpc hi hs (hnext rfl)

/-- One piece of code behind the other. -/
theorem Runs.bind (h : t.Runs s Q) (h' : ∀ s, Q s → t.Runs s Q') : t.Runs s Q' := by
  obtain ⟨n, s₁, hrun, hQ⟩ := h
  obtain ⟨k, s', hrun', hQ'⟩ := h' s₁ hQ
  refine ⟨n + k, s', ?_, hQ'⟩
  clear hQ h'
  induction n generalizing s with
  | zero =>
      obtain rfl := Option.some.inj hrun
      rwa [Nat.zero_add]
  | succ n ih =>
      rw [run_succ] at hrun
      obtain ⟨s₂, hs₂, hrun⟩ := Option.bind_eq_some_iff.mp hrun
      rw [Nat.add_right_comm, run_succ, hs₂]
      exact ih hrun

/-- A loop with an invariant that counts the rounds. -/
theorem Runs.loop {I : Nat → State → Prop} {n : Nat}
    (hround : ∀ i < n, ∀ s, I i s → t.Runs s (I (i + 1))) (h : I 0 s) : t.Runs s (I n) := by
  induction n with
  | zero => exact .done h
  | succ n ih =>
      refine (ih fun i hi ↦ hround i (Nat.lt_succ_of_lt hi)).bind ?_
      exact hround n n.lt_succ_self

/-- A loop that can be left from the middle. -/
theorem Runs.scan {I : Nat → State → Prop} {n : Nat}
    (hround : ∀ i < n, ∀ s, I i s → t.Runs s fun s' ↦ I (i + 1) s' ∨ Q s') (h : I 0 s) :
    t.Runs s fun s' ↦ I n s' ∨ Q s' := by
  refine Runs.loop (I := fun i s' ↦ I i s' ∨ Q s') (fun i hi s' h' ↦ ?_) (Or.inl h)
  obtain h' | h' := h'
  · exact hround i hi s' h'
  · exact .done (Or.inr h')

/-- A routine returns in one way only. -/
theorem Returns.and (h : t.Returns s Q) (h' : t.Returns s Q') :
    t.Returns s fun s' ↦ Q s' ∧ Q' s' := by
  obtain ⟨n, s', hrun, hpc, hQ⟩ := h
  obtain ⟨k, s'', hrun', hpc', hQ'⟩ := h'
  have hsame : s' = s'' := by
    induction n generalizing s k with
    | zero =>
        obtain rfl := Option.some.inj hrun
        cases k with
        | zero => exact Option.some.inj hrun'
        | succ k =>
            rw [run_succ, step_of_returned hpc] at hrun'
            cases hrun'
    | succ n ih =>
        rw [run_succ] at hrun
        obtain ⟨s₁, hs₁, hrun⟩ := Option.bind_eq_some_iff.mp hrun
        cases k with
        | zero =>
            obtain rfl := Option.some.inj hrun'
            rw [step_of_returned hpc'] at hs₁
            cases hs₁
        | succ k =>
            rw [run_succ, hs₁] at hrun'
            exact ih hrun k hrun'
  subst hsame
  exact ⟨n, s', hrun, hpc, hQ, hQ'⟩

end Text

end DemosOS.Lib.A64
