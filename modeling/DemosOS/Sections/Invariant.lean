import DemosOS.Sections.Steps

/-!
# Counters and stacks

The counter `preempt_disabled` of a process is the number of critical sections that are open on its
stack, and one more for every call of `copy_process` that was refused and did not close its section.
Only the topmost place of a stack is in a section, because a tick puts a selection function on a
stack only where no section is open.  A process that has lost the processor is behind its
`cpu_switch_to_process` or at its beginning, and so inside a section.

`SectionInv` says this, and every step keeps it.
-/

namespace DemosOS

open Lib Kernel

/-- The number of critical sections that are open on a stack. -/
def stackDepth (stack : List Place) : Nat := (stack.map Place.depth).sum

@[simp] theorem stackDepth_nil : stackDepth [] = 0 := rfl

@[simp] theorem stackDepth_cons (place : Place) (stack : List Place) :
    stackDepth (place :: stack) = place.depth + stackDepth stack := rfl

@[simp] theorem stackDepth_append (l l' : List Place) :
    stackDepth (l ++ l') = stackDepth l + stackDepth l' := by
  simp [stackDepth]

theorem stackDepth_eq_zero {l : List Place} : stackDepth l = 0 ↔ ∀ place ∈ l, place.depth = 0 := by
  induction l with
  | nil => simp
  | cons place l ih => simp [ih]

/-- The value of `current_process` while a process with the given stack is on the processor. -/
def currentOf (executing : PcbPtr) : List Place → PcbPtr
  | .swapping nextProcess :: _ => nextProcess
  | _ => executing

theorem currentOf_eq {e : PcbPtr} {l : List Place} (h : ∀ next, .swapping next ∉ l) :
    currentOf e l = e := by
  unfold currentOf
  split
  · exact absurd List.mem_cons_self (h _)
  · rfl

namespace Place

theorem IsParked.depth {place : Place} (h : place.IsParked) : place.depth = 1 := by
  rcases h with rfl | rfl <;> rfl

/-- A place outside of the sections is not in a switch. -/
theorem ne_swapping {place : Place} (h : place.depth = 0) (next : PcbPtr) :
    place ≠ .swapping next := by
  rintro rfl
  cases h

theorem InSwitch.depth {place : Place} (h : place.InSwitch) : place.depth = 1 := by
  cases place <;> first | rfl | exact h.elim

end Place

/-- What holds between any two steps. -/
structure SectionInv (c : SectionConfig) : Prop where
  registry : c.shared.kernel.Registry
  executing : c.shared.kernel.Known c.shared.executing
  current : c.shared.kernel.currentProcess = currentOf c.shared.executing
    (c.point c.shared.executing)
  swap : ∀ next rest, c.point c.shared.executing = .swapping next :: rest →
    next ≠ c.shared.executing
  counter : ∀ p, c.shared.kernel.Known p →
    (c.shared.kernel.pcb p).preemptDisabled = stackDepth (c.point p) + c.shared.refused p
  parked : ∀ p, c.shared.kernel.Known p → p ≠ c.shared.executing →
    ∃ place rest, c.point p = place :: rest ∧ place.IsParked
  lower : ∀ p, ∀ place ∈ (c.point p).tail, place.depth = 0
  newborn : ∀ p, .starting ∈ c.point p → c.point p = [.starting] ∧ c.shared.refused p = 0
  unborn : ∀ p, ¬ c.shared.kernel.Known p → c.point p = [.starting] ∧ c.shared.refused p = 0
  targets : ∀ p, ∀ place ∈ c.point p, ∀ d, place.target = some d → c.shared.kernel.Known d

/-- A piece of code of the executing process `e` that replaces a place in `n` critical sections on
its stack by the places `new`. -/
structure CodeTurn (e : PcbPtr) (n : Nat) (k k' : Kernel Pointers) (new : List Place) : Prop where
  advances : Advances e (stackDepth new - n) k k'
  lower : ∀ place ∈ new.tail, place.depth = 0
  stays : ∀ next, .swapping next ∉ new
  born : .starting ∉ new
  targets : ∀ place ∈ new, ∀ d, place.target = some d → k.Known d

namespace SectionInv

variable {c : SectionConfig} {s : Processor} {rest : List Place}

section

variable (h : SectionInv c)
include h

/-- The stack of the executing process is replaced, and processes may have been created. -/
theorem replace {l : List Place}
    (hregistry : s.kernel.Registry) (hexec : s.kernel.Known s.executing)
    (hold : ∀ p, c.shared.kernel.Known p → s.kernel.Known p)
    (hnew : ∀ p, s.kernel.Known p → ¬ c.shared.kernel.Known p →
      (s.kernel.pcb p).preemptDisabled = 1)
    (hcounter : ∀ p, c.shared.kernel.Known p → p ≠ c.shared.executing →
      (s.kernel.pcb p).preemptDisabled = (c.shared.kernel.pcb p).preemptDisabled)
    (hself : (s.kernel.pcb c.shared.executing).preemptDisabled =
      stackDepth l + s.refused c.shared.executing)
    (hrefused : ∀ p, p ≠ c.shared.executing → s.refused p = c.shared.refused p)
    (hleft : s.executing ≠ c.shared.executing → ∃ place rest, l = place :: rest ∧ place.IsParked)
    (hcurrent : s.kernel.currentProcess =
      currentOf s.executing (Function.update c.point c.shared.executing l s.executing))
    (hswap : ∀ next rest,
      Function.update c.point c.shared.executing l s.executing = .swapping next :: rest →
      next ≠ s.executing)
    (hlower : ∀ place ∈ l.tail, place.depth = 0)
    (hnewborn : .starting ∈ l → l = [.starting] ∧ s.refused c.shared.executing = 0)
    (htargets : ∀ place ∈ l, ∀ d, place.target = some d → c.shared.kernel.Known d) :
    SectionInv ⟨s, Function.update c.point c.shared.executing l⟩ := by
  set e := c.shared.executing with he
  have hpoint : Function.update c.point e l e = l := Function.update_self ..
  have hother : ∀ {p}, p ≠ e → Function.update c.point e l p = c.point p := fun hp ↦
    Function.update_of_ne hp ..
  have hfresh : ∀ {p}, ¬ c.shared.kernel.Known p → p ≠ e := fun hp hpe ↦ hp (hpe ▸ h.executing)
  refine ⟨hregistry, hexec, hcurrent, hswap, ?_, ?_, ?_, ?_, ?_, ?_⟩
  · intro p hp
    dsimp only
    by_cases hpe : p = e
    · rw [hpe, hpoint]
      exact hself
    · rw [hother hpe, hrefused p hpe]
      by_cases hk : c.shared.kernel.Known p
      · rw [hcounter p hk hpe, h.counter p hk]
      · obtain ⟨hbirth, hnone⟩ := h.unborn p hk
        rw [hnew p hp hk, hbirth, hnone]
        rfl
  · intro p hp hpn
    dsimp only
    by_cases hpe : p = e
    · rw [hpe, hpoint]
      exact hleft fun hsame ↦ hpn (hpe.trans hsame.symm)
    · rw [hother hpe]
      by_cases hk : c.shared.kernel.Known p
      · exact h.parked p hk hpe
      · exact ⟨.starting, [], (h.unborn p hk).1, .inr rfl⟩
  · intro p
    dsimp only
    by_cases hpe : p = e
    · rw [hpe, hpoint]
      exact hlower
    · rw [hother hpe]
      exact h.lower p
  · intro p
    dsimp only
    by_cases hpe : p = e
    · rw [hpe, hpoint]
      exact hnewborn
    · rw [hother hpe, hrefused p hpe]
      exact h.newborn p
  · intro p hp
    have hk : ¬ c.shared.kernel.Known p := fun hk ↦ hp (hold p hk)
    dsimp only
    rw [hother (hfresh hk), hrefused p (hfresh hk)]
    exact h.unborn p hk
  · intro p place hplace d hd
    dsimp only at hplace
    refine hold d ?_
    by_cases hpe : p = e
    · rw [hpe, hpoint] at hplace
      exact htargets place hplace d hd
    · rw [hother hpe] at hplace
      exact h.targets p place hplace d hd

/-- The process on the processor keeps it. -/
theorem keep {l : List Place} {d : Int}
    (hk : Counts c.shared.executing d c.shared.kernel s.kernel)
    (hexec : s.executing = c.shared.executing)
    (hrefused : ∀ p, p ≠ c.shared.executing → s.refused p = c.shared.refused p)
    (hdepth : (stackDepth l + s.refused c.shared.executing : Int) =
      stackDepth (c.point c.shared.executing) + c.shared.refused c.shared.executing + d)
    (hcurrent : s.kernel.currentProcess = currentOf c.shared.executing l)
    (hswap : ∀ next rest, l = .swapping next :: rest → next ≠ c.shared.executing)
    (hlower : ∀ place ∈ l.tail, place.depth = 0)
    (hnewborn : .starting ∈ l → l = [.starting] ∧ s.refused c.shared.executing = 0)
    (htargets : ∀ place ∈ l, ∀ d, place.target = some d → c.shared.kernel.Known d) :
    SectionInv ⟨s, Function.update c.point c.shared.executing l⟩ := by
  refine h.replace (hk.registry h.registry) ?_ (fun p ↦ (hk.known p).mpr)
    (fun p hp hnot ↦ absurd ((hk.known p).mp hp) hnot) ?_ ?_ hrefused
    (fun hne ↦ absurd hexec hne) ?_ ?_ hlower hnewborn htargets
  · rw [hexec, hk.known]
    exact h.executing
  · intro p hp hpe
    rw [hk.counter p hp, if_neg hpe, Int.add_zero]
  · rw [hk.counter _ h.executing, if_pos rfl, h.counter _ h.executing]
    exact hdepth.symm
  · rw [hexec, Function.update_self]
    exact hcurrent
  · rw [hexec, Function.update_self]
    exact hswap

/-- A piece of code that leaves the processor to the executing process. -/
theorem turn {n : Nat} {k' : Kernel Pointers} {new : List Place}
    (hstack : stackDepth (c.point c.shared.executing) = n + stackDepth rest)
    (hrest : ∀ place ∈ rest, place.depth = 0 ∧ place ∈ c.point c.shared.executing)
    (hcurrent : c.shared.kernel.currentProcess = c.shared.executing)
    (ht : CodeTurn c.shared.executing n c.shared.kernel k' new) :
    SectionInv ⟨c.shared.withKernel k',
      Function.update c.point c.shared.executing (new ++ rest)⟩ := by
  have hstays : ∀ next, .swapping next ∉ new ++ rest := by
    intro next hmem
    rcases List.mem_append.mp hmem with hmem | hmem
    · exact ht.stays next hmem
    · exact Place.ne_swapping (hrest _ hmem).1 next rfl
  refine h.keep ht.advances.toCounts rfl (fun _ _ ↦ rfl) ?_ ?_ ?_ ?_ ?_ ?_
  · rw [stackDepth_append, hstack]
    simp only [Processor.withKernel]
    omega
  · rw [currentOf_eq hstays]
    exact ht.advances.currentProcess.trans hcurrent
  · intro next rest' hl
    exact absurd (hl ▸ List.mem_cons_self) (hstays next)
  · intro place hplace
    cases new with
    | nil => exact (hrest place (List.mem_of_mem_tail hplace)).1
    | cons x new =>
        rcases List.mem_append.mp hplace with hplace | hplace
        · exact ht.lower place hplace
        · exact (hrest place hplace).1
  · intro hmem
    rcases List.mem_append.mp hmem with hmem | hmem
    · exact absurd hmem ht.born
    · cases (hrest _ hmem).1
  · intro place hplace d hd
    rcases List.mem_append.mp hplace with hplace | hplace
    · exact ht.targets place hplace d hd
    · exact h.targets _ place (hrest place hplace).2 d hd

end

end SectionInv

/-! ## The code of the steps -/

namespace Kernel

variable {k k' : Kernel Pointers} {next : PcbPtr}

/-- `preempt_disable` takes back `preempt_enable`. -/
theorem preemptDisable_preemptEnable (k : Kernel Pointers) :
    (k.mapGlobals (·.preemptEnable)).mapGlobals (·.preemptDisable) = k := by
  have hpcb : k.toGlobals.preemptEnable.preemptDisable = k.toGlobals := by
    simp [Globals.preemptDisable, Globals.preemptEnable, Globals.modifyPcb]
  rw [mapGlobals, mapGlobals_toGlobals, hpcb]
  rfl

/-- A choice is a selection from the state before `preempt_disable`. -/
theorem chooseNext_eq (k : Kernel Pointers) :
    k.chooseNext = (k.mapGlobals (·.preemptEnable)).select := by
  rw [select_eq, preemptDisable_preemptEnable]

theorem updates_chooseNext (h : k.chooseNext = some (next, k')) :
    Updates True k.toGlobals k'.toGlobals := by
  rw [chooseNext_eq] at h
  have hupdates := updates_select h
  have hsame := congrArg toGlobals (preemptDisable_preemptEnable k)
  rw [mapGlobals_toGlobals] at hsame
  rwa [hsame] at hupdates

/-- Whoever is chosen is in the table. -/
theorem advances_chooseNext (e : PcbPtr) (hk : k.Registry) (hcur : k.Known k.currentProcess)
    (h : k.chooseNext = some (next, k')) : Advances e 0 k k' ∧ k.Known next := by
  have hsteady := (updates_chooseNext h).steady
  rw [chooseNext_eq] at h
  have hlinks₀ : (k.mapGlobals (·.preemptEnable)).queues.Within {p | k.Known p} := hk.links
  obtain ⟨hlinks, hnext⟩ := within_select hlinks₀ hcur hk.init h
  exact ⟨.of_steady e hsteady fun _ ↦ hlinks, hnext⟩

/-- A write that neither the table nor the counters see. -/
theorem advances_elsewhere (e : PcbPtr) {g : Globals} (hpcb : g.pcb = k.pcb)
    (hfrozen : g.frozen = k.frozen) (hcur : g.currentProcess = k.currentProcess) :
    Advances e 0 k { k with toGlobals := g } :=
  have hupdates : Updates False k.toGlobals g := .elsewhere hpcb hfrozen hcur
  .of_steady e hupdates.steady id

/-- The other parameters of `sched_set_param`. -/
theorem advances_schedSetParam (e p : PcbPtr) {param value : Int}
    (h : ¬ SetsLevel p param value) :
    Advances e 0 k (k.mapGlobals fun g ↦ (g.schedSetParam p param value).2) := by
  have hwrite : ∀ f : PCB → PCB, (∀ b, (f b).pid = b.pid) →
      (∀ b, (f b).preemptDisabled = b.preemptDisabled) →
      Advances e 0 k (k.mapGlobals (·.modifyPcb p f)) := fun f hpid hcounter ↦
    .modifyPcb e k p hpid hcounter
  unfold Globals.schedSetParam
  split_ifs with hinit hpriority hlow htickets hlow' hlevel hrange
  · exact .refl e k
  · exact .refl e k
  · exact hwrite (fun b ↦ { b with priority := value }) (fun _ ↦ rfl) fun _ ↦ rfl
  · exact .refl e k
  · exact hwrite (fun b ↦ { b with tickets := value }) (fun _ ↦ rfl) fun _ ↦ rfl
  · exact .refl e k
  · exact absurd ⟨hinit, hlevel, by omega, by omega⟩ h
  · exact .refl e k

end Kernel

namespace CodeTurn

variable {e d : PcbPtr} {n : Nat} {k k' : Kernel Pointers} {place : Place}

/-- The code returns to its caller. -/
theorem done (h : Advances e (-n) k k') : CodeTurn e n k k' [] :=
  ⟨by rwa [stackDepth_nil, Nat.cast_zero, zero_sub], nofun, nofun, nofun, nofun⟩

/-- The code goes on at another place. -/
theorem goOn {i : Int} (h : Advances e i k k') (hi : i = place.depth - n)
    (hstays : ∀ next, place ≠ .swapping next) (hborn : place ≠ .starting)
    (htarget : ∀ d, place.target = some d → k.Known d) : CodeTurn e n k k' [place] where
  advances := by
    rw [stackDepth_cons, stackDepth_nil, Nat.add_zero, ← hi]
    exact h
  lower := nofun
  stays next hmem := hstays next (List.mem_singleton.mp hmem).symm
  born hmem := hborn (List.mem_singleton.mp hmem).symm
  targets x hx d hd := htarget d (List.mem_singleton.mp hx ▸ hd)

/-- The code goes on at a place that refers to no process. -/
theorem pass {i : Int} (h : Advances e i k k') (hi : i = place.depth - n)
    (htarget : place.target = none) (hborn : place ≠ .starting) : CodeTurn e n k k' [place] := by
  refine goOn h hi ?_ hborn fun d hd ↦ ?_
  · rintro next rfl
    cases htarget
  · cases htarget.symm.trans hd

/-- The code calls `schedule` outside of the sections and goes on with a loop after that. -/
theorem block (h : Advances e 0 k k') (hdepth : place.depth = 0)
    (htarget : ∀ d, place.target = some d → k.Known d) :
    CodeTurn e 0 k k' [.schedule, place] where
  advances := by
    rw [stackDepth_cons, stackDepth_cons, stackDepth_nil, hdepth]
    exact h
  lower x hx := List.mem_singleton.mp hx ▸ hdepth
  stays next hmem := by
    rcases List.mem_cons.mp hmem with h | h
    · cases h
    · exact Place.ne_swapping hdepth next (List.mem_singleton.mp h).symm
  born hmem := by
    rcases List.mem_cons.mp hmem with h | h
    · cases h
    · rw [← List.mem_singleton.mp h] at hdepth
      cases hdepth
  targets x hx d hd := by
    rcases List.mem_cons.mp hx with rfl | hx
    · cases hd
    · exact htarget d (List.mem_singleton.mp hx ▸ hd)

end CodeTurn

section

variable [KernelImage]

/-- A message slot of `owner`.  Past the end of the array the message writes `next_ready`. -/
theorem advances_writeSlot (e : PcbPtr) (k : Kernel Pointers) (owner : PcbPtr) (i : Nat)
    (message : Message) (hdest : ∀ d, message.destinationProcess = some d → k.Known d) :
    Advances e 0 k (k.writeSlot owner i message) := by
  unfold writeSlot
  split_ifs
  · exact .modifyPcb _ _ _ (f := fun b ↦ { b with messagesBuffer := { b.messagesBuffer with
      buffer := Function.update b.messagesBuffer.buffer i message } }) (fun _ ↦ rfl) fun _ ↦ rfl
  · set f : PCB → PCB := fun b ↦
      { b with
        pendingSignals := (pointerBits message.sourceProcess).setWidth 32
        pidToWait := (((pointerBits message.sourceProcess) >>> 32).setWidth 32).toInt
        pastEnd := message.body } with hf
    have hpcb := Advances.modifyPcb e k owner (f := f) (fun _ ↦ rfl) fun _ ↦ rfl
    exact { hpcb with links := fun hlinks ↦ hlinks.setNext owner hdest }

variable [KernelCode]

/-- The places whose step keeps the processor and creates nobody. -/
def Place.IsCode : Place → Prop
  | dispatching _ | swapping _ | forking _ _ _ => False
  | _ => True

/-- The steps of the code. -/
theorem Place.step_turn {s s' : Processor} {place : Place} {new : List Place}
    (hk : s.kernel.Registry) (hknown : s.kernel.Known s.kernel.currentProcess)
    (hcur : s.kernel.currentProcess = s.executing)
    (htarget : ∀ d, place.target = some d → s.kernel.Known d) (hcode : place.IsCode)
    (h : place.step s = some (s', new)) :
    ∃ k', s' = s.withKernel k' ∧ CodeTurn s.executing place.depth s.kernel k' new := by
  have hdisable := Advances.preemptDisable s.kernel
  have henable := Advances.preemptEnable s.kernel
  rw [hcur] at hdisable henable
  have hstate : ∀ state, Advances s.executing 0 s.kernel
      (s.kernel.mapGlobals fun g ↦ g.setState g.currentProcess state) := fun state ↦
    .modifyPcb _ _ _ (f := fun b ↦ { b with state }) (fun _ ↦ rfl) fun _ ↦ rfl
  cases place with
  | schedule =>
      obtain ⟨rfl, rfl⟩ := Prod.mk.inj (Option.some.inj h)
      have hupdates : Updates False s.kernel.toGlobals s.kernel.endBurst := .endBurst _
      have hadv : Advances s.executing 0 s.kernel (s.kernel.mapGlobals (·.endBurst)) :=
        .of_steady _ hupdates.steady id
      exact ⟨_, rfl, .pass hadv rfl rfl (by simp)⟩
  | entering =>
      obtain ⟨rfl, rfl⟩ := Prod.mk.inj (Option.some.inj h)
      exact ⟨_, rfl, .pass hdisable rfl rfl (by simp)⟩
  | selecting =>
      obtain ⟨⟨next, k'⟩, hchoose, h⟩ := Option.map_eq_some_iff.mp h
      obtain ⟨rfl, rfl⟩ := Prod.mk.inj h
      obtain ⟨hadv, hnext⟩ := advances_chooseNext s.executing hk hknown hchoose
      refine ⟨k', rfl, .goOn hadv rfl (by simp) (by simp) ?_⟩
      exact fun d hd ↦ Option.some.inj hd ▸ hnext
  | dispatching => exact hcode.elim
  | swapping => exact hcode.elim
  | resuming =>
      obtain ⟨rfl, rfl⟩ := Prod.mk.inj (Option.some.inj h)
      exact ⟨_, rfl, .done henable⟩
  | starting =>
      obtain ⟨rfl, rfl⟩ := Prod.mk.inj (Option.some.inj h)
      exact ⟨_, rfl, .done henable⟩
  | exiting slots =>
      cases slots with
      | nil =>
          obtain ⟨rfl, rfl⟩ := Prod.mk.inj (Option.some.inj h)
          exact ⟨_, rfl, .pass henable rfl rfl (by simp)⟩
      | cons i slots =>
          obtain ⟨k', hwake, h⟩ := Option.map_eq_some_iff.mp h
          obtain ⟨rfl, rfl⟩ := Prod.mk.inj h
          exact ⟨k', rfl, .pass (advances_wakeWaiter _ hwake) rfl rfl (by simp)⟩
  | forking => exact hcode.elim
  | settingLevel p value =>
      obtain ⟨rfl, rfl⟩ := Prod.mk.inj (Option.some.inj h)
      have hadv := Advances.modifyPcb s.executing s.kernel p
        (f := fun b ↦ { b with queuePriority := value }) (fun _ ↦ rfl) fun _ ↦ rfl
      exact ⟨_, rfl, .pass (hadv.trans (advances_elsewhere _ rfl rfl rfl)) rfl rfl (by simp)⟩
  | leaving =>
      obtain ⟨rfl, rfl⟩ := Prod.mk.inj (Option.some.inj h)
      exact ⟨_, rfl, .done henable⟩
  | sending destination body =>
      have hdest : s.kernel.Known destination := htarget destination rfl
      have hgoal : ∀ d, some destination = some d → s.kernel.Known d := htarget
      dsimp only [Place.step] at h
      split_ifs at h with hfull
      · obtain ⟨rfl, rfl⟩ := Prod.mk.inj (Option.some.inj h)
        exact ⟨s.kernel, rfl, .goOn (.refl _ _) rfl nofun nofun hgoal⟩
      · obtain ⟨rfl, rfl⟩ := Prod.mk.inj (Option.some.inj h)
        have hslot := advances_writeSlot s.executing s.kernel destination
          (s.kernel.ring destination).head (s.kernel.composeMessage destination body)
          fun d hd ↦ Option.some.inj hd ▸ hdest
        have hhead := Advances.modifyPcb s.executing (s.kernel.writeSlot destination
            (s.kernel.ring destination).head (s.kernel.composeMessage destination body)) destination
          (f := fun b ↦ { b with messagesBuffer := { b.messagesBuffer with
            head := nextIndex (s.kernel.ring destination).head } }) (fun _ ↦ rfl) fun _ ↦ rfl
        exact ⟨_, rfl, .goOn (hslot.trans hhead) rfl nofun nofun hgoal⟩
  | sendBlock destination body =>
      obtain ⟨rfl, rfl⟩ := Prod.mk.inj (Option.some.inj h)
      exact ⟨_, rfl, .block (hstate _) rfl htarget⟩
  | wakingReceiver destination =>
      obtain ⟨k', hwake, h⟩ := Option.map_eq_some_iff.mp h
      obtain ⟨rfl, rfl⟩ := Prod.mk.inj h
      exact ⟨k', rfl, .done (advances_wakeIf _ (htarget _ rfl) hwake)⟩
  | receiving =>
      dsimp only [Place.step] at h
      unfold popMessage at h
      split_ifs at h with hempty
      · obtain ⟨rfl, rfl⟩ := Prod.mk.inj (Option.some.inj h)
        exact ⟨s.kernel, rfl, .pass (.refl _ _) rfl rfl (by simp)⟩
      · obtain ⟨rfl, rfl⟩ := Prod.mk.inj (Option.some.inj h)
        have htail := Advances.modifyPcb s.executing s.kernel s.kernel.currentProcess
          (f := fun b ↦ { b with messagesBuffer := { b.messagesBuffer with
            tail := nextIndex (s.kernel.ring s.kernel.currentProcess).tail } })
          (fun _ ↦ rfl) fun _ ↦ rfl
        exact ⟨_, rfl, .pass htail rfl rfl (by simp)⟩
  | receiveBlock =>
      obtain ⟨rfl, rfl⟩ := Prod.mk.inj (Option.some.inj h)
      exact ⟨_, rfl, .block (hstate _) rfl nofun⟩
  | wakingSenders slots =>
      cases slots with
      | nil =>
          obtain ⟨rfl, rfl⟩ := Prod.mk.inj (Option.some.inj h)
          exact ⟨s.kernel, rfl, .done (.refl _ _)⟩
      | cons i slots =>
          obtain ⟨k', hwake, h⟩ := Option.map_eq_some_iff.mp h
          obtain ⟨rfl, rfl⟩ := Prod.mk.inj h
          exact ⟨k', rfl, .pass (advances_wakeSender _ hwake) rfl rfl (by simp)⟩

omit [KernelImage] [KernelCode] in
/-- The first steps of the system calls. -/
theorem Service.start_turn {s : Processor} (hk : s.kernel.Registry) (service : Service)
    (hcur : s.kernel.currentProcess = s.executing) :
    ∃ k', (service.start s).1 = s.withKernel k' ∧
      CodeTurn s.executing 0 s.kernel k' (service.start s).2 := by
  have hdisable := Advances.preemptDisable s.kernel
  rw [hcur] at hdisable
  have hstate : ∀ (k : Kernel Pointers) state, Advances s.executing 0 k
      (k.mapGlobals fun g ↦ g.setState g.currentProcess state) := fun _ state ↦
    .modifyPcb _ _ _ (f := fun b ↦ { b with state }) (fun _ ↦ rfl) fun _ ↦ rfl
  have hstay : CodeTurn s.executing 0 s.kernel s.kernel [] := .done (.refl _ _)
  cases service with
  | yield =>
      have hupdates : Updates False s.kernel.toGlobals
          (s.kernel.setCounter s.kernel.currentProcess 0) := .setCounter ..
      have hadv : Advances s.executing 0 s.kernel
          (s.kernel.mapGlobals fun g ↦ g.setCounter g.currentProcess 0) :=
        .of_steady _ hupdates.steady id
      exact ⟨_, rfl, .pass hadv rfl rfl (by simp)⟩
  | block state => exact ⟨_, rfl, .pass (hstate _ state) rfl rfl (by simp)⟩
  | wait pid =>
      dsimp only [Service.start]
      split
      · exact ⟨_, rfl, hstay⟩
      · split_ifs
        · exact ⟨_, rfl, hstay⟩
        · have hadv := Advances.modifyPcb s.executing s.kernel s.kernel.currentProcess
            (f := fun b ↦ { b with state := .waitingAnotherProcess, pidToWait := pid })
            (fun _ ↦ rfl) fun _ ↦ rfl
          exact ⟨_, rfl, .pass hadv rfl rfl (by simp)⟩
  | exit => exact ⟨_, rfl, .pass (hdisable.trans (hstate _ .zombie)) rfl rfl (by simp)⟩
  | copyProcess flags function argument =>
      exact ⟨_, rfl, .pass hdisable rfl rfl (by simp)⟩
  | setParam pid param value =>
      dsimp only [Service.start]
      split
      · exact ⟨_, rfl, hstay⟩
      · rename_i p hp
        split_ifs with hlevel
        · exact ⟨_, rfl, .pass hdisable rfl rfl (by simp)⟩
        · refine ⟨_, rfl, .done ?_⟩
          exact advances_schedSetParam _ _ hlevel
  | signal pid signalFlag =>
      refine ⟨_, rfl, .done ?_⟩
      unfold Globals.syscallSendSignal
      cases hp : s.kernel.searchProcess pid with
      | none =>
          simp only [mapGlobals, hp]
          exact .refl _ _
      | some p =>
          simp only [mapGlobals, hp]
          exact .modifyPcb _ _ p (f := fun b ↦ b.raiseSignal signalFlag) (fun _ ↦ rfl) fun _ ↦ rfl
  | send pid body =>
      dsimp only [Service.start]
      split
      · exact ⟨_, rfl, hstay⟩
      · rename_i destination hdest
        refine ⟨_, rfl, .goOn (.refl _ _) rfl (by simp) (by simp) ?_⟩
        rintro d ⟨⟩
        exact (hk.table.searchProcess_eq_some.mp hdest).1
  | receive => exact ⟨_, rfl, .pass (.refl _ _) rfl rfl (by simp)⟩

end

/-! ## The invariant is kept -/

namespace SectionInv

variable {c : SectionConfig} {place : Place} {rest : List Place}

section

variable (h : SectionInv c)
include h

/-- Below the topmost place there are no sections. -/
theorem rest_depth (htop : c.point c.shared.executing = place :: rest) :
    ∀ x ∈ rest, x.depth = 0 ∧ x ∈ c.point c.shared.executing := by
  intro x hx
  refine ⟨h.lower c.shared.executing x ?_, ?_⟩
  · rwa [htop]
  · rw [htop]
    exact List.mem_cons_of_mem _ hx

/-- Outside of the window of `cpu_switch_to_process` the process on the processor is
`current_process`. -/
theorem current_eq (hstays : ∀ next rest, c.point c.shared.executing ≠ .swapping next :: rest) :
    c.shared.kernel.currentProcess = c.shared.executing := by
  rw [h.current]
  unfold currentOf
  split
  · rename_i next rest htop
    exact absurd htop (hstays next rest)
  · rfl

/-- Whoever is not on the processor is in a section. -/
theorem one_le_of_ne {p : PcbPtr} (hp : c.shared.kernel.Known p) (hpe : p ≠ c.shared.executing) :
    1 ≤ (c.shared.kernel.pcb p).preemptDisabled := by
  obtain ⟨place, rest, htop, hparked⟩ := h.parked p hp hpe
  rw [h.counter p hp, htop, stackDepth_cons, hparked.depth]
  omega

/-- A process whose topmost place is in a section has a positive counter. -/
theorem one_le_of_top (hdepth : place.depth = 1)
    (htop : c.point c.shared.executing = place :: rest) :
    1 ≤ (c.shared.kernel.pcb c.shared.executing).preemptDisabled := by
  rw [h.counter _ h.executing, htop, stackDepth_cons, hdepth]
  omega

theorem current_known : c.shared.kernel.Known c.shared.kernel.currentProcess := by
  rw [h.current]
  unfold currentOf
  split
  · rename_i next rest htop
    refine h.targets c.shared.executing (.swapping next) ?_ next rfl
    rw [htop]
    exact List.mem_cons_self
  · exact h.executing

/-- Code that stays where it is. -/
theorem stay {k' : Kernel Pointers} (hk : Advances c.shared.executing 0 c.shared.kernel k') :
    SectionInv ⟨c.shared.withKernel k',
      Function.update c.point c.shared.executing (c.point c.shared.executing)⟩ := by
  refine h.keep hk.toCounts rfl (fun _ _ ↦ rfl) ?_ (hk.currentProcess.trans h.current) h.swap
    (h.lower _) (h.newborn _) (h.targets _)
  exact (Int.add_zero _).symm

/-- A tick that enters the scheduler. -/
theorem tick {b : Bool} {k' : Kernel Pointers}
    (hentry : c.shared.kernel.tickEntry = some (b, k')) :
    SectionInv ⟨c.shared.withKernel k', Function.update c.point c.shared.executing
      (if b = true then .entering :: c.point c.shared.executing
        else c.point c.shared.executing)⟩ := by
  have hk := advances_tickEntry c.shared.executing hentry
  split_ifs with hb
  · obtain ⟨-, hpreempt, -⟩ := (tickEntry_spec hentry).2.mp hb
    have hcur : c.shared.kernel.currentProcess = c.shared.executing := by
      by_contra hne
      have hpos := h.one_le_of_ne h.current_known hne
      exact absurd hpos (not_le.mpr (Int.lt_of_le_of_lt hpreempt Int.one_pos))
    have hcount := h.counter _ h.executing
    rw [Globals.current, hcur] at hpreempt
    have hdepth : stackDepth (c.point c.shared.executing) = 0 := by omega
    have hzero := stackDepth_eq_zero.mp hdepth
    refine h.keep hk.toCounts rfl (fun _ _ ↦ rfl) ?_ (hk.currentProcess.trans hcur) (by simp)
      hzero ?_ ?_
    · rw [stackDepth_cons, Int.add_zero]
      simp only [Place.depth, Nat.zero_add, Processor.withKernel]
    · intro hmem
      rcases List.mem_cons.mp hmem with hmem | hmem
      · cases hmem
      · cases hzero _ hmem
    · intro place hplace d hd
      rcases List.mem_cons.mp hplace with rfl | hplace
      · cases hd
      · exact h.targets _ place hplace d hd
  · exact h.stay hk

/-- The assignments of `switch_to_process`. -/
theorem dispatch {next : PcbPtr} (htop : c.point c.shared.executing = .dispatching next :: rest) :
    SectionInv ⟨c.shared.mapGlobals (·.switchToProcess next),
      Function.update c.point c.shared.executing
        ((if c.shared.kernel.currentProcess = next then .resuming else .swapping next) ::
          rest)⟩ := by
  have hcur := h.current_eq (by simp [htop])
  have hrest := h.rest_depth htop
  have hnext : c.shared.kernel.Known next :=
    h.targets _ (.dispatching next) (htop ▸ List.mem_cons_self) next rfl
  have hafter : (c.shared.kernel.switchToProcess next).currentProcess = next :=
    (c.shared.kernel.toGlobals).dispatch_currentProcess next
  refine h.keep (counts_switchToProcess _ _ next) rfl (fun _ _ ↦ rfl) ?_ ?_ ?_ ?_ ?_ ?_
  · rw [htop, Int.add_zero]
    split_ifs <;> rfl
  · refine hafter.trans ?_
    split_ifs with hsame
    · exact hsame.symm.trans hcur
    · rfl
  · intro next' rest' hl
    split_ifs at hl with hsame
    · cases hl
    · obtain ⟨hl, -⟩ := List.cons.inj hl
      cases hl
      exact fun he ↦ hsame (hcur.trans he.symm)
  · exact fun place hplace ↦ (hrest place hplace).1
  · intro hmem
    rcases List.mem_cons.mp hmem with hmem | hmem
    · split_ifs at hmem
    · cases (hrest _ hmem).1
  · intro place hplace d hd
    rcases List.mem_cons.mp hplace with rfl | hplace
    · split_ifs at hd
      · cases hd
      · cases hd
        exact hnext
    · exact h.targets _ place (hrest place hplace).2 d hd

/-- `cpu_switch_to_process`. -/
theorem swapTo {next : PcbPtr} (htop : c.point c.shared.executing = .swapping next :: rest) :
    SectionInv ⟨{ c.shared with executing := next },
      Function.update c.point c.shared.executing (.resuming :: rest)⟩ := by
  have hrest := h.rest_depth htop
  have hnext : c.shared.kernel.Known next :=
    h.targets _ (.swapping next) (htop ▸ List.mem_cons_self) next rfl
  have hne := h.swap next rest htop
  obtain ⟨place, rest', hplace, hparked⟩ := h.parked next hnext hne
  have hpoint : Function.update c.point c.shared.executing (.resuming :: rest) next =
      place :: rest' := (Function.update_of_ne hne ..).trans hplace
  refine h.replace h.registry hnext (fun _ ↦ id) (fun p hp hnot ↦ absurd hp hnot)
    (fun _ _ _ ↦ rfl) ?_ (fun _ _ ↦ rfl) (fun _ ↦ ⟨.resuming, rest, rfl, .inl rfl⟩) ?_ ?_
    (fun x hx ↦ (hrest x hx).1) ?_ ?_
  · rw [h.counter _ h.executing, htop]
    rfl
  · dsimp only
    rw [h.current, htop, hpoint]
    rcases hparked with rfl | rfl <;> rfl
  · intro next' rest'' hl
    dsimp only at hl
    rw [hpoint] at hl
    rcases hparked with rfl | rfl <;> cases hl
  · intro hmem
    rcases List.mem_cons.mp hmem with hmem | hmem
    · cases hmem
    · cases (hrest _ hmem).1
  · intro place hplace d hd
    rcases List.mem_cons.mp hplace with rfl | hplace
    · cases hd
    · exact h.targets _ place (hrest place hplace).2 d hd

/-- `copy_process` has created a process. -/
theorem created {p : PcbPtr} {k' : Kernel Pointers} {flags function argument : Nat}
    (htop : c.point c.shared.executing = .forking flags function argument :: rest)
    (hcreated : Created p c.shared.kernel k') :
    SectionInv ⟨c.shared.withKernel k',
      Function.update c.point c.shared.executing (.leaving :: rest)⟩ := by
  have hrest := h.rest_depth htop
  have hcur := h.current_eq (by simp [htop])
  have hold : ∀ q, c.shared.kernel.Known q → k'.Known q := fun q hq ↦
    (hcreated.known q).mpr (.inr hq)
  refine h.replace hcreated.registry (hold _ h.executing) hold ?_
    (fun q hq _ ↦ hcreated.counter q hq) ?_ (fun _ _ ↦ rfl) (fun hne ↦ absurd rfl hne) ?_ ?_
    (fun x hx ↦ (hrest x hx).1) ?_ ?_
  · intro q hq hnot
    rcases (hcreated.known q).mp hq with rfl | hq
    · exact hcreated.child
    · exact absurd hq hnot
  · refine (hcreated.counter _ h.executing).trans ?_
    rw [h.counter _ h.executing, htop]
    rfl
  · dsimp only [Processor.withKernel]
    rw [Function.update_self, hcreated.currentProcess]
    exact hcur
  · intro next rest' hl
    dsimp only [Processor.withKernel] at hl
    rw [Function.update_self] at hl
    cases hl
  · intro hmem
    rcases List.mem_cons.mp hmem with hmem | hmem
    · cases hmem
    · cases (hrest _ hmem).1
  · intro place hplace d hd
    rcases List.mem_cons.mp hplace with rfl | hplace
    · cases hd
    · exact h.targets _ place (hrest place hplace).2 d hd

/-- `copy_process` has refused. -/
theorem refusal {k' : Kernel Pointers} {flags function argument : Nat}
    (htop : c.point c.shared.executing = .forking flags function argument :: rest)
    (hk : Advances c.shared.executing 0 c.shared.kernel k') :
    SectionInv ⟨{ c.shared with
      kernel := k'
      refused := Function.update c.shared.refused c.shared.executing
        (c.shared.refused c.shared.executing + 1) },
      Function.update c.point c.shared.executing rest⟩ := by
  have hrest := h.rest_depth htop
  have hstays : ∀ next, .swapping next ∉ rest := fun next hmem ↦
    Place.ne_swapping (hrest _ hmem).1 next rfl
  have hcur := h.current_eq (by simp [htop])
  refine h.keep hk.toCounts rfl (fun p hp ↦ Function.update_of_ne hp ..) ?_ ?_ ?_ ?_ ?_ ?_
  · dsimp only
    rw [Function.update_self, htop, stackDepth_cons, Int.add_zero]
    have hdepth : (Place.forking flags function argument).depth = 1 := rfl
    omega
  · rw [currentOf_eq hstays]
    exact hk.currentProcess.trans hcur
  · rintro next rest' rfl
    exact absurd List.mem_cons_self (hstays next)
  · exact fun x hx ↦ (hrest x (List.mem_of_mem_tail hx)).1
  · intro hmem
    cases (hrest _ hmem).1
  · exact fun x hx ↦ h.targets _ x (hrest x hx).2

end

section

variable [KernelImage] [KernelCode]

/-- What the step at a place can be. -/
theorem step_cases (h : SectionInv c) {s : Processor} {new : List Place}
    (htop : c.point c.shared.executing = place :: rest)
    (hstep : place.step c.shared = some (s, new)) :
    (∃ k', place.IsCode ∧ s = c.shared.withKernel k' ∧
      c.shared.kernel.currentProcess = c.shared.executing ∧
      CodeTurn c.shared.executing place.depth c.shared.kernel k' new) ∨
    (∃ next, place = .dispatching next ∧ s = c.shared.mapGlobals (·.switchToProcess next) ∧
      new = [if c.shared.kernel.currentProcess = next then .resuming else .swapping next]) ∨
    (∃ next, place = .swapping next ∧ s = { c.shared with executing := next } ∧
      new = [.resuming]) ∨
    (∃ flags function argument k' p, place = .forking flags function argument ∧
      c.shared.kernel.CanFork ∧ s = c.shared.withKernel k' ∧ new = [.leaving] ∧
      Created p c.shared.kernel k') ∨
    ∃ flags function argument k', place = .forking flags function argument ∧
      ¬ c.shared.kernel.CanFork ∧
      s = { c.shared with
        kernel := k'
        refused := Function.update c.shared.refused c.shared.executing
          (c.shared.refused c.shared.executing + 1) } ∧ new = [] ∧
      Advances c.shared.executing 0 c.shared.kernel k' := by
  -- the steps that keep the processor and create nobody
  have hcode : place.IsCode → ∃ k', place.IsCode ∧ s = c.shared.withKernel k' ∧
      c.shared.kernel.currentProcess = c.shared.executing ∧
      CodeTurn c.shared.executing place.depth c.shared.kernel k' new := by
    intro hcode
    have hcur : c.shared.kernel.currentProcess = c.shared.executing := by
      refine h.current_eq fun next rest' hswap ↦ ?_
      obtain ⟨rfl, -⟩ := List.cons.inj (htop.symm.trans hswap)
      exact hcode
    have htarget : ∀ d, place.target = some d → c.shared.kernel.Known d :=
      h.targets _ place (htop ▸ List.mem_cons_self)
    obtain ⟨k', hk', hturn⟩ :=
      place.step_turn h.registry h.current_known hcur htarget hcode hstep
    exact ⟨k', hcode, hk', hcur, hturn⟩
  cases place with
  | dispatching next =>
      obtain ⟨rfl, rfl⟩ := Prod.mk.inj (Option.some.inj hstep)
      exact .inr (.inl ⟨next, rfl, rfl, rfl⟩)
  | swapping next =>
      obtain ⟨rfl, rfl⟩ := Prod.mk.inj (Option.some.inj hstep)
      exact .inr (.inr (.inl ⟨next, rfl, rfl, rfl⟩))
  | forking flags function argument =>
      obtain ⟨⟨r, k'⟩, hcreate, hr⟩ := Option.map_eq_some_iff.mp hstep
      obtain ⟨rfl, rfl⟩ := Prod.mk.inj hr
      obtain ⟨hcan, hneg, hadv⟩ | ⟨hcan, hpos, p, hcreated⟩ :=
        createProcess_cases c.shared.executing h.registry hcreate
      · rw [if_neg hcan, if_pos hneg]
        exact .inr (.inr (.inr (.inr ⟨flags, function, argument, k', rfl, hcan, rfl, rfl, hadv⟩)))
      · rw [if_pos hcan, if_neg (not_lt.mpr hpos)]
        exact .inr (.inr (.inr (.inl
          ⟨flags, function, argument, k', p, rfl, hcan, rfl, rfl, hcreated⟩)))
  | _ => exact .inl (hcode trivial)

/-- The step at a place. -/
theorem proceed (h : SectionInv c) {s : Processor} {new : List Place}
    (htop : c.point c.shared.executing = place :: rest)
    (hstep : place.step c.shared = some (s, new)) :
    SectionInv ⟨s, Function.update c.point c.shared.executing (new ++ rest)⟩ ∧
      ∀ p, c.shared.kernel.Known p → s.kernel.Known p := by
  obtain ⟨k', -, rfl, hcur, hturn⟩ | ⟨next, rfl, rfl, rfl⟩ | ⟨next, rfl, rfl, rfl⟩ |
    ⟨flags, function, argument, k', p, rfl, -, rfl, rfl, hcreated⟩ |
    ⟨flags, function, argument, k', rfl, -, rfl, rfl, hadv⟩ := h.step_cases htop hstep
  · exact ⟨h.turn (by rw [htop, stackDepth_cons]) (h.rest_depth htop) hcur hturn,
      fun p ↦ (hturn.advances.known p).mpr⟩
  · exact ⟨h.dispatch htop,
      fun p ↦ ((counts_switchToProcess c.shared.executing _ next).known p).mpr⟩
  · exact ⟨h.swapTo htop, fun _ ↦ id⟩
  · exact ⟨h.created htop hcreated, fun q hq ↦ (hcreated.known q).mpr (.inr hq)⟩
  · exact ⟨h.refusal htop hadv, fun p ↦ (hadv.known p).mpr⟩

/-- A step on the processor keeps the invariant and the processes. -/
theorem act (h : SectionInv c) {choice : Choice} {s : Processor} {l : List Place}
    (henabled : choice.Enabled c.shared (c.point c.shared.executing))
    (hact : sectionAct choice c.shared (c.point c.shared.executing) = some (s, l)) :
    SectionInv ⟨s, Function.update c.point c.shared.executing l⟩ ∧
      ∀ p, c.shared.kernel.Known p → s.kernel.Known p := by
  obtain ⟨service, rfl, htop, hstart⟩ | ⟨place, rest, new, rfl, htop, hstep, rfl⟩ |
    ⟨b, k', rfl, hentry, rfl, rfl⟩ | ⟨mis, fifo, fifo', k', rfl, hirq, rfl, rfl⟩ |
    ⟨k', rfl, rfl, rfl⟩ := sectionAct_cases hact
  · have hcur := h.current_eq (by simp [htop])
    obtain ⟨k', hk', hturn⟩ := Service.start_turn h.registry service hcur
    rw [hstart] at hk' hturn
    obtain rfl : s = c.shared.withKernel k' := hk'
    have hkeep : SectionInv ⟨c.shared.withKernel k', Function.update c.point
        c.shared.executing (l ++ [])⟩ := h.turn (by rw [htop]; rfl) nofun hcur hturn
    rw [List.append_nil] at hkeep
    exact ⟨hkeep, fun p ↦ (hturn.advances.known p).mpr⟩
  · exact h.proceed htop hstep
  · exact ⟨h.tick hentry, fun p ↦ ((advances_tickEntry c.shared.executing hentry).known p).mpr⟩
  · have hadv := advances_handleUartIrq c.shared.executing hirq
    exact ⟨h.stay hadv, fun p ↦ (hadv.known p).mpr⟩
  · exact ⟨h.stay henabled.1, fun p ↦ (henabled.1.known p).mpr⟩

omit [KernelImage] [KernelCode] in
/-- The invariant holds at boot. -/
theorem boot (algorithm : Algorithm) (timerClo : Nat → BitVec 32) :
    SectionInv (sectionBoot algorithm timerClo) := by
  have hknown : ∀ {p}, (Kernel.boot algorithm timerClo).Known p → p = .initProcess := by
    rintro p ⟨i, hi⟩
    have hi : (if i = 0 then some PcbPtr.initProcess else none) = some p := hi
    split_ifs at hi
    exact (Option.some.inj hi).symm
  have hother : ∀ {p}, p ≠ .initProcess → (sectionBoot algorithm timerClo).point p = [.starting] :=
    fun hp ↦ if_neg hp
  have hinit : (sectionBoot algorithm timerClo).point .initProcess = [] := rfl
  have htable : (Kernel.boot algorithm timerClo).Table := by
    have htable := (boot_sound algorithm timerClo).inv.table
    exact htable
  refine ⟨⟨htable, ?_, nofun, nofun⟩, ⟨0, rfl⟩, rfl, nofun, ?_, ?_, ?_, ?_, ?_, ?_⟩
  · intro p hp a ha
    obtain rfl := hknown hp
    cases ha
  · intro p hp
    obtain rfl := hknown hp
    rfl
  · exact fun p hp hne ↦ absurd (hknown hp) hne
  · intro p place hplace
    by_cases hp : p = .initProcess
    · rw [hp, hinit] at hplace
      cases hplace
    · rw [hother hp] at hplace
      cases hplace
  · intro p hmem
    by_cases hp : p = .initProcess
    · rw [hp, hinit] at hmem
      cases hmem
    · exact ⟨hother hp, rfl⟩
  · intro p hp
    exact ⟨hother fun he ↦ hp ⟨0, he ▸ rfl⟩, rfl⟩
  · intro p place hplace d hd
    by_cases hp : p = .initProcess
    · rw [hp, hinit] at hplace
      cases hplace
    · rw [hother hp] at hplace
      rw [List.mem_singleton.mp hplace] at hd
      cases hd

/-- Every run keeps the invariant. -/
theorem run {c' : SectionConfig} (h : SectionInv c)
    (hsteps : Relation.ReflTransGen SectionStep c c') : SectionInv c' := by
  refine Machine.invariant ?_ ?_ hsteps h
  · exact fun c choice s l h henabled hact ↦ (h.act henabled hact).1
  · exact fun c s _ _ hs ↦ nomatch hs

/-- No process leaves the table. -/
theorem known_of_run {c' : SectionConfig} {p : PcbPtr} (h : SectionInv c)
    (hsteps : Relation.ReflTransGen SectionStep c c') (hp : c.shared.kernel.Known p) :
    c'.shared.kernel.Known p := by
  induction hsteps with
  | refl => exact hp
  | tail hrun hstep ih =>
      obtain ⟨e, henabled, hnext⟩ := hstep
      obtain ⟨choice, s, l, rfl, hact, rfl⟩ := sectionNext_cases hnext
      exact ((h.run hrun).act henabled hact).2 p ih

end

end SectionInv

section

variable [KernelImage] [KernelCode] {c : SectionConfig}

theorem SectionReachable.inv (h : SectionReachable c) : SectionInv c := by
  obtain ⟨algorithm, timerClo, hsteps⟩ := h
  exact (SectionInv.boot algorithm timerClo).run hsteps

end

end DemosOS
