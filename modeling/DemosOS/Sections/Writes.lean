import DemosOS.Sections.Window

/-!
# Writes to the ready queues

The selection functions, `exit_process` and `copy_process` write the ready queues inside a critical
section.  The wake-ups of `push_message` and `receive_message` are in none, and neither is the slot
past the end of a message ring, which covers `next_ready`.
-/

namespace DemosOS

open Lib Kernel

namespace Place

/-- The code of a place writes a head, a tail or a link. -/
def Writes (s : Processor) : Place → Prop
  | selecting | exiting (_ :: _) | forking _ _ _ => True
  | sending destination _ => ¬ s.kernel.RingFull destination ∧
      MAX_MESSAGES_PER_PROCESS ≤ (s.kernel.ring destination).head
  | wakingReceiver destination => destination ≠ .initProcess ∧
      (s.kernel.pcb destination).state = .waitingToReceiveMessage
  | wakingSenders (i :: _) => ∃ p, s.kernel.processes i = some p ∧ p ≠ .initProcess ∧
      (s.kernel.pcb p).state = .waitingToSendMessage
  | _ => False

/-- The places in `push_message` and at the end of `receive_message`. -/
def OfMessages : Place → Prop
  | sending _ _ | wakingReceiver _ | wakingSenders _ => True
  | _ => False

theorem OfMessages.depth {place : Place} (h : place.OfMessages) : place.depth = 0 := by
  cases place <;> first | rfl | exact h.elim

end Place

/-- Code of the executing process writes a head, a tail or a link. -/
def Choice.Writes (s : Processor) (stack : List Place) : Choice → Prop
  | proceed => ∃ place rest, stack = place :: rest ∧ place.Writes s
  | write kernel => ¬ s.kernel.SameQueues kernel
  | _ => False

/-- The process is in the code of messages. -/
def InMessages (stack : List Place) : Prop :=
  ∃ place rest, stack = place :: rest ∧ place.OfMessages

theorem SameQueues.of_queues {k k' : Kernel Pointers} (h : k'.queues = k.queues) :
    k.SameQueues k' :=
  ⟨congrArg Links.ends h, fun p _ ↦ congrFun (congrArg Links.next h) p⟩

/-- A wake-up of init, or of a process that does not wait, leaves the queues alone. -/
theorem queues_wakeIf {k k' : Kernel Pointers} {state : ProcessState} {p : PcbPtr}
    (hp : ¬ (p ≠ .initProcess ∧ (k.pcb p).state = state)) (h : k.wakeIf state p = some k') :
    k'.queues = k.queues := by
  unfold wakeIf at h
  split_ifs at h with hstate
  · have hinit : p = .initProcess := by
      by_contra hne
      exact hp ⟨hne, hstate⟩
    rw [enqueueProcess, if_pos hinit] at h
    rw [← Option.some.inj h]
    rfl
  · rw [← Option.some.inj h]

section

variable [KernelImage] [KernelCode] {c : SectionConfig} {s s' : Processor}

/-- The other places leave the queues alone. -/
theorem Place.step_queues {place : Place} {new : List Place} (hplace : ¬ place.Writes s)
    (h : place.step s = some (s', new)) : s'.kernel.queues = s.kernel.queues := by
  cases place with
  | selecting => exact absurd trivial hplace
  | forking => exact absurd trivial hplace
  | exiting slots =>
      cases slots with
      | nil =>
          obtain ⟨rfl, -⟩ := Prod.mk.inj (Option.some.inj h)
          rfl
      | cons i slots => exact absurd trivial hplace
  | sending destination body =>
      dsimp only [Place.step] at h
      split_ifs at h with hfull
      · obtain ⟨rfl, -⟩ := Prod.mk.inj (Option.some.inj h)
        rfl
      · obtain ⟨rfl, -⟩ := Prod.mk.inj (Option.some.inj h)
        have hslot : (s.kernel.ring destination).head < MAX_MESSAGES_PER_PROCESS := by
          by_contra hlt
          exact hplace ⟨hfull, not_lt.mp hlt⟩
        rw [writeSlot, if_pos hslot]
        rfl
  | wakingReceiver destination =>
      obtain ⟨k', hwake, hr⟩ := Option.map_eq_some_iff.mp h
      obtain ⟨rfl, -⟩ := Prod.mk.inj hr
      exact queues_wakeIf hplace hwake
  | receiving =>
      dsimp only [Place.step] at h
      unfold popMessage at h
      split_ifs at h
      · obtain ⟨rfl, -⟩ := Prod.mk.inj (Option.some.inj h)
        rfl
      · obtain ⟨rfl, -⟩ := Prod.mk.inj (Option.some.inj h)
        rfl
  | wakingSenders slots =>
      cases slots with
      | nil =>
          obtain ⟨rfl, -⟩ := Prod.mk.inj (Option.some.inj h)
          rfl
      | cons i slots =>
          obtain ⟨k', hwake, hr⟩ := Option.map_eq_some_iff.mp h
          obtain ⟨rfl, -⟩ := Prod.mk.inj hr
          unfold wakeSender at hwake
          split at hwake
          · rw [← Option.some.inj hwake]
            rfl
          · rename_i p hp
            exact queues_wakeIf (fun hw ↦ hplace ⟨p, hp, hw⟩) hwake
  | schedule | entering | dispatching | swapping | resuming | starting | settingLevel | leaving
  | sendBlock | receiveBlock =>
      obtain ⟨rfl, -⟩ := Prod.mk.inj (Option.some.inj h)
      rfl

omit [KernelImage] [KernelCode] in
/-- The first steps of the system calls leave the queues alone. -/
theorem Service.start_queues (s : Processor) (service : Service) :
    (service.start s).1.kernel.queues = s.kernel.queues := by
  cases service with
  | wait pid | setParam pid param value | send pid body =>
      dsimp only [Service.start]
      split
      · rfl
      · first | rfl | (split_ifs <;> rfl)
  | _ => rfl

/-- Code of a process that changes a head, a tail or a link is among the writes. -/
theorem Choice.writes_of_changes {choice : Choice} {stack l : List Place}
    (hprocess : choice ≠ .tick ∧ ∀ mis fifo, choice ≠ .uartIrq mis fifo)
    (hact : sectionAct choice s stack = some (s', l)) (hchange : ¬ s.kernel.SameQueues s'.kernel) :
    choice.Writes s stack := by
  obtain ⟨service, rfl, htop, hstart⟩ | ⟨place, rest, new, rfl, rfl, hstep, rfl⟩ |
    ⟨b, k', rfl, -, -, -⟩ | ⟨mis, fifo, fifo', k', rfl, -, -, -⟩ | ⟨k', rfl, rfl, rfl⟩ :=
    sectionAct_cases hact
  · have hsame := Service.start_queues s service
    rw [hstart] at hsame
    exact absurd (SameQueues.of_queues hsame) hchange
  · refine ⟨place, rest, rfl, ?_⟩
    by_contra hplace
    exact hchange (SameQueues.of_queues (Place.step_queues hplace hstep))
  · exact absurd rfl hprocess.1
  · exact absurd rfl (hprocess.2 mis fifo)
  · exact hchange

/-- What a process writes to the ready queues is guarded by its counter, except for the writes of
the code of messages in a process that has had no call of `copy_process` refused. -/
theorem queue_writes_guarded (h : SectionReachable c) {choice : Choice}
    (henabled : choice.Enabled c.shared (c.point c.shared.executing)) :
    (choice.Writes c.shared (c.point c.shared.executing) →
      0 < c.shared.kernel.current.preemptDisabled) ↔
    ¬ (choice.Writes c.shared (c.point c.shared.executing) ∧
      InMessages (c.point c.shared.executing) ∧ c.shared.refused c.shared.executing = 0) := by
  have hinv := h.inv
  by_cases hwrites : choice.Writes c.shared (c.point c.shared.executing)
  · -- the place, and the counter there
    have hplace : ∃ place rest, c.point c.shared.executing = place :: rest ∧
        (place.OfMessages ∨ place.depth = 1 ∧ ∀ next, place ≠ .swapping next) := by
      cases choice with
      | proceed =>
          obtain ⟨place, rest, htop, hplace⟩ := hwrites
          refine ⟨place, rest, htop, ?_⟩
          cases place <;> first | exact hplace.elim | exact .inl trivial | exact .inr ⟨rfl, nofun⟩
      | write kernel =>
          obtain ⟨place, rest, htop, hplace⟩ := henabled.2.resolve_left hwrites
          refine ⟨place, rest, htop, ?_⟩
          cases place <;> first | exact hplace.elim | exact .inl trivial | exact .inr ⟨rfl, nofun⟩
      | call | tick | uartIrq => exact hwrites.elim
    obtain ⟨place, rest, htop, hkind⟩ := hplace
    have hcur : c.shared.kernel.currentProcess = c.shared.executing := by
      refine hinv.current_eq fun next rest' he ↦ ?_
      obtain ⟨rfl, -⟩ := List.cons.inj (htop.symm.trans he)
      rcases hkind with hkind | hkind
      · exact hkind
      · exact hkind.2 next rfl
    have hcount : c.shared.kernel.current.preemptDisabled =
        place.depth + c.shared.refused c.shared.executing := by
      have hrest : stackDepth rest = 0 :=
        stackDepth_eq_zero.mpr fun x hx ↦ (hinv.rest_depth htop x hx).1
      rw [Globals.current, hcur, hinv.counter _ hinv.executing, htop, stackDepth_cons, hrest]
      omega
    rw [hcount]
    rcases hkind with hkind | ⟨hdepth, -⟩
    · have hin : InMessages (c.point c.shared.executing) := ⟨place, rest, htop, hkind⟩
      rw [hkind.depth]
      constructor
      · rintro hpos ⟨-, -, hnone⟩
        have hpos := hpos hwrites
        omega
      · intro hnot _
        have hsome : c.shared.refused c.shared.executing ≠ 0 := fun hnone ↦
          hnot ⟨hwrites, hin, hnone⟩
        omega
    · have hout : ¬ InMessages (c.point c.shared.executing) := by
        rintro ⟨place', rest', htop', hplace'⟩
        obtain ⟨rfl, -⟩ := List.cons.inj (htop.symm.trans htop')
        rw [hplace'.depth] at hdepth
        cases hdepth
      refine iff_of_true (fun _ ↦ ?_) fun hno ↦ hout hno.2.1
      rw [hdepth]
      omega
  · simp [hwrites]

end

/-- A kernel thread waits for a message, and init sends it one, up to the wake-up. -/
def toWakeUp : List (Event Choice) :=
  toSwitch ++ List.replicate 2 (.act .proceed) ++
    .act (.call .receive) :: List.replicate 8 (.act .proceed) ++
      [.act (.call (.send 1 [104, 105])), .act .proceed]

/-- The wake-up is about to write the ready queue. -/
theorem toWakeUp_spec : let _ := someImage; let _ := someCode
    ∃ c : SectionConfig, SectionReachable c ∧
      Choice.proceed.Writes c.shared (c.point c.shared.executing) ∧
      c.shared.kernel.current.preemptDisabled = 0 := by
  intro _ _
  have hrun : (sectionMachine.run SimpleSection toWakeUp (sectionBoot .roundRobin fun _ ↦ 0)).any
      (fun c ↦ c.point c.shared.executing = [.wakingReceiver (.page 0)] ∧
        (c.shared.kernel.pcb (.page 0)).state = .waitingToReceiveMessage ∧
        c.shared.kernel.current.preemptDisabled = 0) = true := by
    decide +kernel
  obtain ⟨c, hc, hprop⟩ := (Option.any_eq_true _ _).mp hrun
  obtain ⟨hpoint, hstate, hcount⟩ := of_decide_eq_true hprop
  exact ⟨c, ⟨_, _, sectionSteps_of_run hc⟩, ⟨_, _, hpoint, nofun, hstate⟩, hcount⟩

/-- A wake-up that is not guarded is one of the exceptions. -/
theorem queue_writes_guarded_wakeUp : let _ := someImage; let _ := someCode
    ∃ c : SectionConfig, SectionReachable c ∧ InMessages (c.point c.shared.executing) ∧
      c.shared.refused c.shared.executing = 0 := by
  intro _ _
  obtain ⟨c, hc, hwrites, hcount⟩ := toWakeUp_spec
  have henabled : Choice.proceed.Enabled c.shared (c.point c.shared.executing) := trivial
  have hexact := queue_writes_guarded hc henabled
  have hnot : ¬ (Choice.proceed.Writes c.shared (c.point c.shared.executing) →
      0 < c.shared.kernel.current.preemptDisabled) := fun hclaim ↦
    absurd (hclaim hwrites) (by rw [hcount]; decide)
  obtain ⟨-, hin, hnone⟩ := not_not.mp ((not_congr hexact).mp hnot)
  exact ⟨c, hc, hin, hnone⟩

/-- The ready queue is written without a guard. -/
theorem queue_writes_guarded_false : ¬ ∀ [KernelImage] [KernelCode] (c : SectionConfig)
    (choice : Choice), SectionReachable c →
      choice.Enabled c.shared (c.point c.shared.executing) →
      choice.Writes c.shared (c.point c.shared.executing) →
      0 < c.shared.kernel.current.preemptDisabled := by
  intro hclaim
  let _ := someImage
  let _ := someCode
  obtain ⟨c, hc, hwrites, hcount⟩ := toWakeUp_spec
  have hpos := hclaim c .proceed hc trivial hwrites
  rw [hcount] at hpos
  exact absurd hpos (lt_irrefl 0)

end DemosOS
