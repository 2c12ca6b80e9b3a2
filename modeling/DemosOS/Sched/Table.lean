import DemosOS.Ipc.Exchange
import DemosOS.Ipc.Ring
import DemosOS.Kernel.Console
import DemosOS.Sched.Consistency
import DemosOS.Sched.Core

/-!
# Walks over the process table

Five loops of the kernel follow the pointers of `processes[]`.  Three of them skip empty
slots and one stops at `n_processes`; the loop at the end of `receive_message` does
neither.  `TableLoop.follows` says which slots each loop follows, and the theorems of the
second section tie it to the loops of the model.

That the occupied slots are the first `n_processes` ones is kept by everything the kernel
does, whatever state its ready queues are in.
-/

namespace DemosOS

/-! ## The loops -/

/-- A loop over `processes[]` that follows the pointers it finds. -/
inductive TableLoop
  | /-- The wake-up of the processes that wait for the caller of `exit_process`. -/
    exitProcess
  | /-- The wake-up of blocked senders in `receive_message`. -/
    receiveMessage
  | /-- The wake-up of readers in `handle_uart_irq`. -/
    handleUartIrq
  | /-- The epoch recharge of `_schedule_priority_aging`. -/
    recharge
  | /-- `search_process`. -/
    searchProcess (pid : Int)
deriving DecidableEq

namespace TableLoop

/-- The bound in the header of the loop. -/
def bound (g : Globals) : TableLoop → Nat
  | handleUartIrq => g.nProcesses
  | exitProcess | receiveMessage | recharge | searchProcess _ => N_PROCESSES

/-- The body compares the pointer with `NULL` before it follows it. -/
def testsNull : TableLoop → Bool
  | exitProcess | recharge | searchProcess _ => true
  | receiveMessage | handleUartIrq => false

/-- The loop is left at slot `i`: only `search_process` returns from inside its loop. -/
def returnsAt (g : Globals) (i : Nat) : TableLoop → Bool
  | searchProcess pid => (g.processes i).any fun p ↦ (g.pcb p).pid = pid
  | exitProcess | receiveMessage | handleUartIrq | recharge => false

/-- The slots the loop reaches. -/
def reaches (g : Globals) (loop : TableLoop) : List Nat :=
  let slots := List.range (loop.bound g)
  slots.take (slots.findIdx (loop.returnsAt g ·) + 1)

/-- The slots whose pointers the loop follows. -/
def follows (g : Globals) (loop : TableLoop) : List Nat :=
  (loop.reaches g).filter fun i ↦ !loop.testsNull || (g.processes i).isSome

/-- The loop follows no `NULL` pointer. -/
def Safe (g : Globals) (loop : TableLoop) : Prop :=
  ∀ i ∈ loop.follows g, (g.processes i).isSome

/-- A loop without a return reaches every slot below its bound. -/
theorem reaches_eq {g : Globals} {loop : TableLoop} (h : ∀ i, loop.returnsAt g i = false) :
    loop.reaches g = List.range (loop.bound g) := by
  unfold reaches
  refine List.take_of_length_le ?_
  have hidx : (List.range (loop.bound g)).findIdx (loop.returnsAt g ·) =
      (List.range (loop.bound g)).length := by
    refine List.findIdx_eq_length_of_false fun i _ ↦ ?_
    simp [h i]
  omega

/-! ## The loops of the model -/

theorem follows_of_untested {g : Globals} {loop : TableLoop} (htest : loop.testsNull = false)
    (hreturn : ∀ i, loop.returnsAt g i = false) :
    loop.follows g = List.range (loop.bound g) := by
  rw [follows, reaches_eq hreturn]
  simp [htest]

theorem follows_of_tested {g : Globals} {loop : TableLoop} (htest : loop.testsNull = true)
    (hreturn : ∀ i, loop.returnsAt g i = false) :
    loop.follows g = (List.range (loop.bound g)).filter fun i ↦ (g.processes i).isSome := by
  rw [follows, reaches_eq hreturn]
  simp [htest]

/-- Slots that the body of a loop skips can be left out. -/
theorem foldlM_skip {σ : Type} {t : Nat → Option PcbPtr} {f : σ → Nat → Option σ}
    {I : σ → Prop} (hkeep : ∀ s i s', I s → f s i = some s' → I s')
    (hskip : ∀ s i, I s → t i = none → f s i = some s) {s : σ} (hs : I s) (l : List Nat) :
    (l.filter fun i ↦ (t i).isSome).foldlM f s = l.foldlM f s := by
  induction l generalizing s with
  | nil => rfl
  | cons i l ih =>
      rw [List.foldlM_cons]
      cases hi : t i with
      | none =>
          rw [List.filter_cons_of_neg (by simp [hi]), hskip s i hs hi, ih hs]
          rfl
      | some p =>
          rw [List.filter_cons_of_pos (by simp [hi]), List.foldlM_cons]
          cases hf : f s i with
          | none => rfl
          | some s' => exact ih (hkeep s i s' hs hf)

/-- The loop of `exit_process`. -/
theorem follows_exitProcess (k : Kernel Pointers) :
    (exitProcess.follows k.toGlobals).foldlM Kernel.wakeWaiter k =
      (List.range N_PROCESSES).foldlM Kernel.wakeWaiter k := by
  rw [follows_of_tested rfl fun _ ↦ rfl]
  refine foldlM_skip (I := fun k' ↦ k'.processes = k.processes) ?_ ?_ rfl _
  · intro k₁ i k₂ h₁ h₂
    unfold Kernel.wakeWaiter at h₂
    split at h₂
    · rwa [← Option.some.inj h₂]
    · split_ifs at h₂
      · rw [Globals.processes_of_frozen (Kernel.steady_enqueueProcess h₂).frozen]
        exact h₁
      · rwa [← Option.some.inj h₂]
  · intro k₁ i h₁ hi
    rw [Kernel.wakeWaiter, h₁, hi]

/-- The loop of `receive_message`. -/
theorem follows_receiveMessage (k : Kernel Pointers) :
    (receiveMessage.follows k.toGlobals).foldlM Kernel.wakeSender k = k.wakeSenders := by
  rw [follows_of_untested rfl fun _ ↦ rfl]
  rfl

/-- The loop of `handle_uart_irq`. -/
theorem follows_handleUartIrq (k : Kernel Pointers) {dr : BitVec 32} (hdr : rxError dr = 0) :
    let stored := k.mapGlobals fun g ↦
      { g with uart := g.uart.store (UInt8.ofBitVec ((dr &&& 0xFF).setWidth 8)) }
    k.receiveWord dr = (handleUartIrq.follows k.toGlobals).foldlM Kernel.wakeReader stored := by
  rw [follows_of_untested rfl fun _ ↦ rfl, Kernel.receiveWord, if_neg (by simp [hdr])]
  rfl

/-- The epoch recharge. -/
theorem follows_recharge (g : Globals) :
    (recharge.follows g).foldl Globals.rechargeSlot g = g.recharge := by
  rw [follows_of_tested rfl fun _ ↦ rfl]
  have hpure : ∀ l : List Nat, l.foldlM (fun (g : Globals) i ↦ some (g.rechargeSlot i)) g =
      some (l.foldl Globals.rechargeSlot g) := fun l ↦ List.foldlM_pure
  apply Option.some.inj
  rw [Globals.recharge, ← hpure, ← hpure]
  refine foldlM_skip (I := fun g' : Globals ↦ g'.processes = g.processes) ?_ ?_ rfl _
  · intro g₁ i g₂ h₁ h₂
    rw [← Option.some.inj h₂, Globals.rechargeSlot_processes]
    exact h₁
  · intro g₁ i h₁ hi
    rw [Globals.rechargeSlot, h₁, hi]

/-- The loop of `search_process`: what it returns is found in the slots it follows. -/
theorem follows_searchProcess (g : Globals) (pid : Int) :
    ((searchProcess pid).follows g).findSome? (fun i ↦
      (g.processes i).bind fun p ↦ if ((g.pcb p).pid : Int) = pid then some p else none) =
    g.searchProcess pid := by
  let f : Nat → Option PcbPtr := fun i ↦
    (g.processes i).bind fun p ↦ if ((g.pcb p).pid : Int) = pid then some p else none
  have hreturn : ∀ i, (searchProcess pid).returnsAt g i = (f i).isSome := by
    intro i
    simp only [returnsAt, f]
    cases g.processes i with
    | none => rfl
    | some p => by_cases hp : ((g.pcb p).pid : Int) = pid <;> simp [hp]
  -- an empty slot never ends the search
  have hskip : ∀ l : List Nat, (l.filter fun i ↦ !(searchProcess pid).testsNull ||
      (g.processes i).isSome).findSome? f = l.findSome? f := by
    intro l
    induction l with
    | nil => rfl
    | cons i l ih =>
        cases hi : g.processes i with
        | none =>
            have hf : f i = none := by simp [f, hi]
            rw [List.filter_cons_of_neg (by simp [hi, testsNull]), List.findSome?_cons, hf]
            exact ih
        | some p =>
            rw [List.filter_cons_of_pos (by simp [hi]), List.findSome?_cons,
              List.findSome?_cons, ih]
  have htake : ∀ l : List Nat,
      (l.take (l.findIdx ((searchProcess pid).returnsAt g ·) + 1)).findSome? f = l.findSome? f := by
    intro l
    induction l with
    | nil => rfl
    | cons i l ih =>
        cases hi : f i with
        | none => simpa [List.findIdx_cons, hreturn, hi] using ih
        | some p => simp [hi]
  rw [follows]
  refine (hskip _).trans ((htake _).trans ?_)
  unfold Globals.searchProcess
  congr 1
  funext i
  simp only [f]
  cases g.processes i <;> rfl

end TableLoop

/-! ## What keeps the table -/

/-- The table and the pids in it are the same. -/
structure SameTable (g g' : Globals) : Prop where
  processes : g'.processes = g.processes
  nProcesses : g'.nProcesses = g.nProcesses
  pid : ∀ p, (g'.pcb p).pid = (g.pcb p).pid

namespace SameTable

variable {g g₁ g₂ : Globals}

theorem refl (g : Globals) : SameTable g g := ⟨rfl, rfl, fun _ ↦ rfl⟩

theorem trans (h : SameTable g g₁) (h' : SameTable g₁ g₂) : SameTable g g₂ :=
  ⟨h'.processes.trans h.processes, h'.nProcesses.trans h.nProcesses,
    fun p ↦ (h'.pid p).trans (h.pid p)⟩

theorem table (h : SameTable g g₁) (ht : g.Table) : g₁.Table :=
  table_mapGlobals ht h.processes h.nProcesses h.pid

theorem of_frozen (h : g₁.frozen = g.frozen) : SameTable g g₁ :=
  ⟨Globals.processes_of_frozen h, Globals.nProcesses_of_frozen h,
    Globals.field_of_frozen h PCB.pid fun _ ↦ rfl⟩

theorem modifyPcb (g : Globals) (p : PcbPtr) {f : PCB → PCB} (hf : ∀ b, (f b).pid = b.pid) :
    SameTable g (g.modifyPcb p f) :=
  ⟨rfl, rfl, fun x ↦ g.modifyPcb_field p x f PCB.pid hf⟩

theorem of_core (h : g₁.core = g.core) : SameTable g g₁ where
  processes := Globals.processes_of_core h
  nProcesses := Globals.nProcesses_of_core h
  pid := Globals.field_of_core h PCB.pid fun _ ↦ rfl

theorem of_ring {owner : PcbPtr} (h : RingWrites owner g g₁) : SameTable g g₁ where
  processes := h.processes
  nProcesses := h.keeps Globals.nProcesses Globals.nProcesses_of_frozen fun _ _ _ ↦ rfl
  pid p := by
    refine h.keeps (fun g ↦ (g.pcb p).pid) ?_ fun g f hf ↦ ?_
    · exact fun h ↦ Globals.field_of_frozen h PCB.pid (fun _ ↦ rfl) p
    · refine g.modifyPcb_field owner p f PCB.pid fun b ↦ ?_
      obtain ⟨_, _, _, _, hb⟩ := hf b
      rw [hb]

variable {k k' : Kernel Pointers}

/-- A loop keeps the table if its body does. -/
theorem foldlM {α : Type} {f : Kernel Pointers → α → Option (Kernel Pointers)}
    (hf : ∀ {k x k'}, f k x = some k' → SameTable k.toGlobals k'.toGlobals) {l : List α}
    (h : l.foldlM f k = some k') : SameTable k.toGlobals k'.toGlobals :=
  Lib.foldlM_invariant (I := fun k₁ ↦ SameTable k.toGlobals k₁.toGlobals)
    (fun hsame hround ↦ hsame.trans (hf hround)) h (refl _)

theorem wakeIf {s : ProcessState} {p : PcbPtr} (h : k.wakeIf s p = some k') :
    SameTable k.toGlobals k'.toGlobals :=
  of_frozen (Kernel.steady_wakeIf h).frozen

theorem receiveWord {dr : BitVec 32} (h : k.receiveWord dr = some k') :
    SameTable k.toGlobals k'.toGlobals := by
  unfold Kernel.receiveWord at h
  split_ifs at h
  · obtain rfl := Option.some.inj h
    exact refl _
  · have hbody : ∀ {k k' : Kernel Pointers} {i : Nat}, k.wakeReader i = some k' →
        SameTable k.toGlobals k'.toGlobals := by
      intro k k' i h
      unfold Kernel.wakeReader at h
      split at h
      · simp at h
      · exact wakeIf h
    have hloop := foldlM hbody h
    exact ⟨hloop.processes, hloop.nProcesses, hloop.pid⟩

theorem handleUartIrq {mis : BitVec 32} {fifo rest : List (BitVec 32)}
    (h : k.handleUartIrq mis fifo = some (rest, k')) : SameTable k.toGlobals k'.toGlobals := by
  have hwords : ∀ {words : List (BitVec 32)} {k k' : Kernel Pointers},
      words.foldlM Kernel.receiveWord k = some k' → SameTable k.toGlobals k'.toGlobals :=
    fun h ↦ foldlM (fun h ↦ receiveWord h) h
  unfold Kernel.handleUartIrq at h
  by_cases hrx : mis &&& (1#32 <<< 4) ≠ 0
  · simp only [if_pos hrx] at h
    obtain ⟨⟨words, k₁⟩, hk₁, h⟩ := Option.bind_eq_some_iff.mp h
    obtain ⟨k₂, hk₂, hk₁⟩ := Option.map_eq_some_iff.mp hk₁
    obtain ⟨-, rfl⟩ := Prod.mk.inj hk₁
    split_ifs at h
    · obtain ⟨-, rfl⟩ := Prod.mk.inj (Option.some.inj h)
      exact hwords hk₂
    · obtain ⟨-, rfl⟩ := Prod.mk.inj (Option.some.inj h)
      exact hwords hk₂
  · simp only [if_neg hrx] at h
    split_ifs at h
    · obtain ⟨-, rfl⟩ := Prod.mk.inj (Option.some.inj h)
      exact refl _
    · obtain ⟨-, rfl⟩ := Prod.mk.inj (Option.some.inj h)
      exact refl _

end SameTable

/-- A process is admitted to the first free slot. -/
theorem Globals.Table.admit {g g' : Globals} (h : g.Table) {p : PcbPtr} (hp : ¬ g.Known p)
    (hproc : g'.processes = Function.update g.processes g.nProcesses (some p))
    (hn : g'.nProcesses = g.nProcesses + 1) (hpid : (g'.pcb p).pid = g.nProcesses)
    (hother : ∀ x, x ≠ p → (g'.pcb x).pid = (g.pcb x).pid) (hroom : g.nProcesses < N_PROCESSES) :
    g'.Table := by
  refine ⟨fun {i x} hi ↦ ?_, fun {i} hi ↦ ?_, ?_, ?_⟩
  · rw [hproc, Function.update_apply] at hi
    rw [hn]
    split_ifs at hi with hin
    · obtain rfl := Option.some.inj hi
      exact ⟨by omega, hpid.trans hin.symm⟩
    · have hx : x ≠ p := fun e ↦ hp ⟨i, e ▸ hi⟩
      rw [hother x hx]
      exact ⟨Nat.lt_succ_of_lt (h.slot hi).1, (h.slot hi).2⟩
  · rw [hproc]
    by_cases hin : i = g.nProcesses
    · exact ⟨p, by simp [hin]⟩
    · obtain ⟨x, hx⟩ := h.filled (i := i) (by omega)
      exact ⟨x, by simpa [hin] using hx⟩
  · have hpos := (h.slot h.init).1
    rw [hproc, Function.update_of_ne (Nat.ne_of_lt hpos)]
    exact h.init
  · omega

/-! ## Everything the kernel does -/

/-- An operation on the scheduler, one turn of the loop of `send_message` or of
`receive_message`, or a console interrupt. -/
inductive Activity
  | op (op : Op)
  | send (destination : PcbPtr) (body : List UInt8)
  | receive
  | uartIrq (mis : BitVec 32) (fifo : List (BitVec 32))

namespace Activity

/-- What the callers promise: `syscall_send_message` has found the destination in the table. -/
def Enabled (g : Globals) : Activity → Prop
  | op o => o.Enabled g
  | send destination _ => g.Known destination
  | receive | uartIrq _ _ => True

variable {k k' : Kernel Pointers}

theorem table_op (h : k.Table) {op : Op} (hop : op.Enabled k.toGlobals)
    (hk' : op.run k = some k') : k'.Table := by
  cases op with
  | add p b =>
      obtain ⟨hp, hpid, -, -⟩ := hop
      have hne : ∀ {x}, k.Known x → x ≠ p := fun hx e ↦ hp (e ▸ hx)
      obtain ⟨⟨r, k₁⟩, hadd, rfl⟩ := Option.map_eq_some_iff.mp hk'
      have hslots : (k.mapGlobals (·.modifyPcb p fun _ ↦ b)).Table := by
        refine ⟨fun {i x} hi ↦ ?_, h.filled, h.init, h.bound⟩
        rw [Kernel.mapGlobals_toGlobals, Globals.modifyPcb_pcb_of_ne _ _ (hne ⟨i, hi⟩)]
        exact h.slot hi
      obtain ⟨-, -, rfl⟩ | ⟨hroom, -, k₂, hk₂, rfl⟩ := Kernel.addProcessToScheduler_cases hadd
      · exact hslots
      · rw [not_or, Nat.not_le] at hroom
        have hpcb : (k.mapGlobals (·.modifyPcb p fun _ ↦ b)).pcb p = b := by simp
        have hsame : SameTable ((k.mapGlobals (·.modifyPcb p fun _ ↦ b)).mapGlobals
            (·.register p)).toGlobals k₂.toGlobals := by
          split_ifs at hk₂
          · exact .of_frozen (Kernel.steady_enqueueProcess hk₂).frozen
          · obtain rfl := Option.some.inj hk₂
            exact .refl _
        refine Globals.Table.admit hslots hp ?_ ?_ ?_ (fun x _ ↦ hsame.pid x) hroom.1
        · refine hsame.processes.trans ?_
          rw [Kernel.mapGlobals_toGlobals, Globals.register, hpcb, hpid]
          rfl
        · exact congrArg (· + 1) hsame.nProcesses
        · refine (hsame.pid p).trans ?_
          rw [Kernel.mapGlobals_toGlobals, Globals.register, hpcb]
          exact hpid
  | wake | yield | block | wait | exit | tick | signal | setParam =>
      refine (SameTable.of_core (Op.core_run ?_ hk')).table h
      exact fun _ _ ↦ nofun

variable [KernelImage]

/-- The kernel after an activity. -/
def run (k : Kernel Pointers) : Activity → Option (Kernel Pointers)
  | op o => o.run k
  | send destination body => (k.attemptSend destination body).map (·.2)
  | receive => k.attemptReceive.map (·.2)
  | uartIrq mis fifo => (k.handleUartIrq mis fifo).map (·.2)

/-- Every activity keeps the table filled from the front. -/
theorem table (h : k.Table) {activity : Activity} (henabled : activity.Enabled k.toGlobals)
    (hk' : activity.run k = some k') : k'.Table := by
  cases activity with
  | op o => exact table_op h henabled hk'
  | send destination body =>
      obtain ⟨⟨r, k₁⟩, hsend, rfl⟩ := Option.map_eq_some_iff.mp hk'
      exact (SameTable.of_ring (.pushMessage hsend)).table h
  | receive =>
      obtain ⟨⟨r, k₁⟩, hreceive, rfl⟩ := Option.map_eq_some_iff.mp hk'
      exact (SameTable.of_ring (.attemptReceive hreceive)).table h
  | uartIrq mis fifo =>
      obtain ⟨⟨r, k₁⟩, hirq, rfl⟩ := Option.map_eq_some_iff.mp hk'
      exact (SameTable.handleUartIrq hirq).table h

/-- One activity. -/
def Step (k k' : Kernel Pointers) : Prop :=
  ∃ activity : Activity, activity.Enabled k.toGlobals ∧ activity.run k = some k'

/-- The states that sequences of activities reach from boot. -/
def Reachable (k : Kernel Pointers) : Prop :=
  ∃ algorithm timerClo, Relation.ReflTransGen Step (Kernel.boot algorithm timerClo) k

theorem Reachable.table (h : Reachable k) : k.Table := by
  obtain ⟨algorithm, timerClo, hsteps⟩ := h
  induction hsteps with
  | refl =>
      have hboot := (boot_sound algorithm timerClo).inv.table
      exact hboot
  | tail _ hstep ih =>
      obtain ⟨activity, henabled, hrun⟩ := hstep
      exact Activity.table ih henabled hrun

theorem reachable_boot (algorithm : Algorithm) (timerClo : Nat → BitVec 32) :
    Reachable (Kernel.boot algorithm timerClo) :=
  ⟨algorithm, timerClo, .refl⟩

theorem Reachable.step (h : Reachable k) {activity : Activity}
    (henabled : activity.Enabled k.toGlobals) (hrun : activity.run k = some k') : Reachable k' := by
  obtain ⟨algorithm, timerClo, hsteps⟩ := h
  exact ⟨algorithm, timerClo, hsteps.tail ⟨activity, henabled, hrun⟩⟩

/-- A checked run of scheduler operations. -/
theorem Reachable.runAll (h : Reachable k) {ops : List Op} (hrun : runAll ops k = some k') :
    Reachable k' := by
  induction ops generalizing k with
  | nil =>
      obtain rfl := Option.some.inj hrun
      exact h
  | cons o ops ih =>
      rw [DemosOS.runAll] at hrun
      split_ifs at hrun with hcheck
      obtain ⟨k₁, hk₁, hrun⟩ := Option.bind_eq_some_iff.mp hrun
      have henabled : (Activity.op o).Enabled k.toGlobals := Op.enabled_of_check h.table hcheck
      refine ih (h.step henabled hk₁) hrun

end Activity

/-! ## Which loops are safe -/

/-- The table is filled from the front, slot `i` holds the process with pid `i`, and no loop
follows an empty slot. -/
structure TableSafe (g : Globals) : Prop where
  occupied : ∀ i, (g.processes i).isSome ↔ i < g.nProcesses
  pid : ∀ {i p}, g.processes i = some p → (g.pcb p).pid = i
  loops : ∀ loop : TableLoop, loop.Safe g

theorem Globals.Table.occupied {g : Globals} (h : g.Table) (i : Nat) :
    (g.processes i).isSome ↔ i < g.nProcesses := by
  rw [Option.isSome_iff_exists]
  constructor
  · rintro ⟨p, hp⟩
    exact (h.slot hp).1
  · exact h.filled

/-- Every loop is safe, except that of `receive_message` while the table has an empty slot. -/
theorem TableLoop.safe_iff {g : Globals} (h : g.Table) (loop : TableLoop) :
    loop.Safe g ↔ (loop = .receiveMessage → g.nProcesses = N_PROCESSES) := by
  have htested : loop.testsNull = true → loop.Safe g := by
    intro htest i hi
    simpa [htest] using (List.mem_filter.mp hi).2
  cases loop with
  | exitProcess => exact iff_of_true (htested rfl) (by simp)
  | recharge => exact iff_of_true (htested rfl) (by simp)
  | searchProcess pid => exact iff_of_true (htested rfl) (by simp)
  | handleUartIrq =>
      refine iff_of_true (fun i hi ↦ ?_) (by simp)
      rw [follows_of_untested rfl fun _ ↦ rfl, List.mem_range] at hi
      exact (h.occupied i).mpr hi
  | receiveMessage =>
      have hfollows : receiveMessage.follows g = List.range N_PROCESSES :=
        follows_of_untested rfl fun _ ↦ rfl
      simp only [Safe, hfollows, List.mem_range, forall_const, h.occupied]
      constructor
      · intro hall
        by_contra hne
        have hlt : g.nProcesses < N_PROCESSES := Nat.lt_of_le_of_ne h.bound hne
        exact Nat.lt_irrefl _ (hall _ hlt)
      · intro hfull i hi
        exact hfull ▸ hi

/-- In every state the kernel can reach, the process table is as it should be, and every
loop over it is safe exactly when the table is full; the loop that is not safe otherwise is
the one of `receive_message`. -/
theorem tableSafe_iff [KernelImage] {k : Kernel Pointers} (h : Activity.Reachable k) :
    (TableSafe k.toGlobals ↔ k.nProcesses = N_PROCESSES) ∧
    (∀ i, (k.processes i).isSome ↔ i < k.nProcesses) ∧
    (∀ {i p}, k.processes i = some p → (k.pcb p).pid = i) ∧
    ∀ loop : TableLoop, loop.Safe k.toGlobals ↔
      (loop = .receiveMessage → k.nProcesses = N_PROCESSES) := by
  have ht := h.table
  refine ⟨⟨fun hsafe ↦ ?_, fun hfull ↦ ?_⟩, ht.occupied, fun hi ↦ (ht.slot hi).2,
    TableLoop.safe_iff ht⟩
  · exact (TableLoop.safe_iff ht .receiveMessage).mp (hsafe.loops _) rfl
  · exact ⟨ht.occupied, fun hi ↦ (ht.slot hi).2,
      fun loop ↦ (TableLoop.safe_iff ht loop).mpr fun _ ↦ hfull⟩

/-- With 63 processes beside init every slot is in use. -/
theorem tableSafe_full : let _ := someImage
    ∃ k, runAll ((List.range 63).map fun i ↦ .add (.page i) (childOfInit (i + 1)))
        (Kernel.boot .roundRobin fun _ ↦ 0) = some k ∧ TableSafe k.toGlobals := by
  intro _
  have hrun : (runAll ((List.range 63).map fun i ↦ .add (.page i) (childOfInit (i + 1)))
      (Kernel.boot .roundRobin fun _ ↦ 0)).any (fun k ↦ k.nProcesses = N_PROCESSES) = true := by
    decide +kernel
  obtain ⟨k, hk, hfull⟩ := (Option.any_eq_true _ _).mp hrun
  refine ⟨k, hk, ?_⟩
  exact (tableSafe_iff ((Activity.reachable_boot _ _).runAll hk)).1.mpr (of_decide_eq_true hfull)

/-- Two processes; the first sends a message to the second and yields.  The second has a
message to receive, and the loop that then wakes senders follows the empty slot 3. -/
theorem tableSafe_false : let _ := someImage
    ∃ k₁ k₂ k : Kernel Pointers,
      runAll [.add (.page 0) (childOfInit 1), .add (.page 1) (childOfInit 2), .tick]
        (Kernel.boot .roundRobin fun _ ↦ 0) = some k₁ ∧
      (Activity.send (.page 1) [104]).run k₁ = some k₂ ∧ runAll [.yield] k₂ = some k ∧
      Activity.Reachable k ∧ k.currentProcess = .page 1 ∧ ¬ k.RingEmpty (.page 1) ∧
      3 ∈ TableLoop.receiveMessage.follows k.toGlobals ∧ k.processes 3 = none ∧
      ¬ TableSafe k.toGlobals := by
  intro _
  have hrun : ((runAll [.add (.page 0) (childOfInit 1), .add (.page 1) (childOfInit 2), .tick]
      (Kernel.boot .roundRobin fun _ ↦ 0)).any fun k₁ ↦
        (List.range N_PROCESSES).any (fun i ↦ k₁.processes i = some (.page 1)) &&
        ((Activity.send (.page 1) [104]).run k₁).any fun k₂ ↦
          (runAll [.yield] k₂).any fun k ↦ k.currentProcess = .page 1 ∧ ¬ k.RingEmpty (.page 1) ∧
            3 ∈ TableLoop.receiveMessage.follows k.toGlobals ∧ k.processes 3 = none) = true := by
    decide +kernel
  obtain ⟨k₁, hk₁, hrun⟩ := (Option.any_eq_true _ _).mp hrun
  rw [Bool.and_eq_true] at hrun
  obtain ⟨hknown, hrun⟩ := hrun
  obtain ⟨k₂, hk₂, hrun⟩ := (Option.any_eq_true _ _).mp hrun
  obtain ⟨k, hk, hrun⟩ := (Option.any_eq_true _ _).mp hrun
  obtain ⟨hcur, hring, hmem, hempty⟩ := of_decide_eq_true hrun
  obtain ⟨i, -, hi⟩ := List.any_eq_true.mp hknown
  have hdest : (Activity.send (.page 1) [104]).Enabled k₁.toGlobals := ⟨i, of_decide_eq_true hi⟩
  have hreach : Activity.Reachable k :=
    (((Activity.reachable_boot _ _).runAll hk₁).step hdest hk₂).runAll hk
  refine ⟨k₁, k₂, k, hk₁, hk₂, hk, hreach, hcur, hring, hmem, hempty, fun hsafe ↦ ?_⟩
  have hsome := hsafe.loops .receiveMessage 3 hmem
  simp [hempty] at hsome

end DemosOS
