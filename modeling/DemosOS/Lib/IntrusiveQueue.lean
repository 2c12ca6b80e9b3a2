import Mathlib.Data.List.Nodup
import Mathlib.Logic.Function.Basic

/-!
# Families of intrusive singly linked queues

A family of FIFO queues threaded through one `next` pointer per node: the queue
`i` is a pair of optional pointers to its first and its last node, and every node
carries the pointer to its successor.  One pointer per node means that a node can
sit in at most one queue at a time, and that linking a node that is already linked
silently corrupts both queues.

`Represents L ls` says that the pointers `L` are the lists `ls`: each queue is a
`NULL`-terminated chain whose tail is its last node, no node occurs twice in a
queue, and no node occurs in two queues.  For each pointer operation there is one
theorem that says which list operation it performs, under the weakest condition on
the node that makes it correct:

| pointers | lists |
|---|---|
| `pushBack i p` | `ls i ++ [p]`, for `p` in no queue |
| `pushFront i p` | `p :: ls i`, for `p` in no queue |
| `popFront i` | the tail of `ls i` |
| `unlink i prev p` | `pre ++ post`, for `ls i = pre ++ p :: post` and `prev` last in `pre` |
| `insertAfter i c p` | `pre ++ c :: p :: post`, for `ls i = pre ++ c :: post` |

Nothing here knows what a node is: nodes and queue names are arbitrary types with
decidable equality.
-/

namespace DemosOS.Lib

universe u v

/-- The two ends of a queue; both are `none` for an empty queue. -/
@[ext]
structure Ends (P : Type v) where
  head : Option P
  tail : Option P
deriving DecidableEq, Repr

/-- A family of queues indexed by `ι`: the successor of every node, and the ends
of every queue. -/
@[ext]
structure Links (ι : Type u) (P : Type v) where
  next : P → Option P
  ends : ι → Ends P

variable {ι : Type u} {P : Type v}

/-! ## Chains -/

/-- `Chain next o l`: following `next` from the pointer `o` visits exactly the
nodes of `l`, in order, and then reaches `NULL`. -/
def Chain (next : P → Option P) : Option P → List P → Prop
  | o, [] => o = none
  | o, x :: xs => o = some x ∧ Chain next (next x) xs

instance Chain.decidable [DecidableEq P] (next : P → Option P) :
    ∀ (o : Option P) (l : List P), Decidable (Chain next o l)
  | o, [] => inferInstanceAs (Decidable (o = none))
  | o, x :: xs =>
      have := Chain.decidable next (next x) xs
      inferInstanceAs (Decidable (o = some x ∧ Chain next (next x) xs))

namespace Chain

variable {next next' : P → Option P} {o : Option P} {l : List P}

@[simp] theorem nil_iff : Chain next o [] ↔ o = none := Iff.rfl

@[simp] theorem cons_iff {x : P} {xs : List P} :
    Chain next o (x :: xs) ↔ o = some x ∧ Chain next (next x) xs := Iff.rfl

/-- The entry pointer of a chain is its first node. -/
theorem head_eq (h : Chain next o l) : o = l.head? := by
  cases l with
  | nil => exact h
  | cons x xs => exact h.1

/-- A chain only reads the successors of its own nodes. -/
theorem congr (h : Chain next o l) (hn : ∀ x ∈ l, next' x = next x) : Chain next' o l := by
  induction l generalizing o with
  | nil => exact h
  | cons x xs ih =>
      refine ⟨h.1, ?_⟩
      rw [hn x List.mem_cons_self]
      exact ih h.2 fun y hy ↦ hn y (List.mem_cons_of_mem _ hy)

/-- Two chains from one pointer are equal. -/
theorem unique {l' : List P} (h : Chain next o l) (h' : Chain next o l') : l = l' := by
  induction l generalizing o l' with
  | nil =>
      cases l' with
      | nil => rfl
      | cons y ys => rw [nil_iff.mp h] at h'; exact absurd h'.1 (by simp)
  | cons x xs ih =>
      cases l' with
      | nil => rw [nil_iff.mp h'] at h; exact absurd h.1 (by simp)
      | cons y ys =>
          obtain rfl : x = y := Option.some.inj (h.1.symm.trans h'.1)
          rw [ih h.2 h'.2]

/-- A chain splits at any of its nodes: the node before the split points to the
rest. -/
theorem next_of_append {pre post : List P} {c : P} (h : Chain next o (pre ++ c :: post)) :
    Chain next (next c) post := by
  induction pre generalizing o with
  | nil => exact h.2
  | cons x xs ih => exact ih h.2

variable [DecidableEq P]

/-- Redirecting the successor of the last node of a prefix replaces the rest of
the chain. -/
theorem splice {pre post : List P} {c : P} (h : Chain next o (pre ++ c :: post))
    (hc : c ∉ pre) (o' : Option P) (post' : List P)
    (hpost : Chain (Function.update next c o') o' post') :
    Chain (Function.update next c o') o (pre ++ c :: post') := by
  induction pre generalizing o with
  | nil =>
      refine ⟨h.1, ?_⟩
      rw [Function.update_self]
      exact hpost
  | cons x xs ih =>
      rw [List.mem_cons, not_or] at hc
      refine ⟨h.1, ?_⟩
      rw [Function.update_of_ne (Ne.symm hc.1)]
      exact ih h.2 hc.2

/-- A chain does not see an update of a node outside it. -/
theorem update_of_notMem {p : P} {v : Option P} (h : Chain next o l) (hp : p ∉ l) :
    Chain (Function.update next p v) o l := by
  refine h.congr fun x hx ↦ ?_
  have hxp : x ≠ p := fun e ↦ hp (e ▸ hx)
  exact Function.update_of_ne hxp v next

end Chain

/-! ## What the pointers stand for -/

/-- The pointers `L` are the lists `ls`. -/
structure Represents (L : Links ι P) (ls : ι → List P) : Prop where
  chain : ∀ i, Chain L.next (L.ends i).head (ls i)
  tail : ∀ i, (L.ends i).tail = (ls i).getLast?
  nodup : ∀ i, (ls i).Nodup
  disjoint : ∀ i j, i ≠ j → ∀ p ∈ ls i, p ∉ ls j

namespace Represents

variable {L : Links ι P} {ls : ι → List P}

theorem head_eq (h : Represents L ls) (i : ι) : (L.ends i).head = (ls i).head? :=
  (h.chain i).head_eq

/-- A queue is empty exactly when its head, equivalently its tail, is `NULL`. -/
theorem tail_eq_none_iff (h : Represents L ls) (i : ι) :
    (L.ends i).tail = none ↔ (L.ends i).head = none := by
  rw [h.tail, h.head_eq, List.getLast?_eq_none_iff, List.head?_eq_none_iff]

/-- The pointers of nodes outside the lists do not matter. -/
theorem congr {L' : Links ι P} (h : Represents L ls) (hends : L'.ends = L.ends)
    (hnext : ∀ i, ∀ p ∈ ls i, L'.next p = L.next p) : Represents L' ls where
  chain i := by
    rw [hends]
    exact (h.chain i).congr (hnext i)
  tail i := by
    rw [hends]
    exact h.tail i
  nodup := h.nodup
  disjoint := h.disjoint

/-- The lists are determined by the pointers. -/
theorem unique {ls' : ι → List P} (h : Represents L ls) (h' : Represents L ls') : ls = ls' :=
  funext fun i ↦ (h.chain i).unique (h'.chain i)

/-- Changing one queue: the new pointers must chain the new list, the other
chains must survive, and the nodes of the new list must be fresh elsewhere. -/
theorem update [DecidableEq ι] (h : Represents L ls) {i : ι} {l : List P} {L' : Links ι P}
    (hends : ∀ j, j ≠ i → L'.ends j = L.ends j)
    (hframe : ∀ j, j ≠ i → ∀ x ∈ ls j, L'.next x = L.next x)
    (hchain : Chain L'.next (L'.ends i).head l) (htail : (L'.ends i).tail = l.getLast?)
    (hnodup : l.Nodup) (hfresh : ∀ p ∈ l, p ∈ ls i ∨ ∀ j, p ∉ ls j) :
    Represents L' (Function.update ls i l) := by
  have hfresh' : ∀ p ∈ l, ∀ j, j ≠ i → p ∉ ls j := by
    intro p hp j hj hpj
    rcases hfresh p hp with hmem | hnone
    · exact h.disjoint i j (Ne.symm hj) p hmem hpj
    · exact hnone j hpj
  refine ⟨fun j ↦ ?_, fun j ↦ ?_, fun j ↦ ?_, fun j k hjk p hp ↦ ?_⟩
  · by_cases hj : j = i
    · subst hj; rw [Function.update_self]; exact hchain
    · rw [Function.update_of_ne hj, hends j hj]
      exact (h.chain j).congr (hframe j hj)
  · by_cases hj : j = i
    · subst hj; rw [Function.update_self]; exact htail
    · rw [Function.update_of_ne hj, hends j hj]; exact h.tail j
  · by_cases hj : j = i
    · subst hj; rw [Function.update_self]; exact hnodup
    · rw [Function.update_of_ne hj]; exact h.nodup j
  · by_cases hj : j = i
    · subst hj
      rw [Function.update_self] at hp
      rw [Function.update_of_ne (Ne.symm hjk)]
      exact hfresh' p hp k (Ne.symm hjk)
    · rw [Function.update_of_ne hj] at hp
      by_cases hk : k = i
      · subst hk
        rw [Function.update_self]
        exact fun hpl ↦ hfresh' p hpl j hj hp
      · rw [Function.update_of_ne hk]
        exact h.disjoint j k hjk p hp

end Represents

/-! ## Pointer operations -/

namespace Links

/-- Write the successor of one node. -/
def setNext [DecidableEq P] (L : Links ι P) (p : P) (o : Option P) : Links ι P :=
  { L with next := Function.update L.next p o }

/-- Write the ends of one queue. -/
def setEnds [DecidableEq ι] (L : Links ι P) (i : ι) (e : Ends P) : Links ι P :=
  { L with ends := Function.update L.ends i e }

@[simp] theorem setNext_ends [DecidableEq P] (L : Links ι P) (p : P) (o : Option P) :
    (L.setNext p o).ends = L.ends := rfl

@[simp] theorem setNext_next [DecidableEq P] (L : Links ι P) (p : P) (o : Option P) :
    (L.setNext p o).next = Function.update L.next p o := rfl

@[simp] theorem setEnds_next [DecidableEq ι] (L : Links ι P) (i : ι) (e : Ends P) :
    (L.setEnds i e).next = L.next := rfl

@[simp] theorem setEnds_ends [DecidableEq ι] (L : Links ι P) (i : ι) (e : Ends P) :
    (L.setEnds i e).ends = Function.update L.ends i e := rfl

variable [DecidableEq ι] [DecidableEq P]

/-- Link `p` after the last node of queue `i`. -/
def pushBack (L : Links ι P) (i : ι) (p : P) : Links ι P :=
  let L := L.setNext p none
  match (L.ends i).tail with
  | none => L.setEnds i ⟨some p, some p⟩
  | some t => (L.setNext t (some p)).setEnds i ⟨(L.ends i).head, some p⟩

/-- Link `p` before the first node of queue `i`; the tail is left as it is, so
the queue must not be empty. -/
def pushFront (L : Links ι P) (i : ι) (p : P) : Links ι P :=
  (L.setNext p (L.ends i).head).setEnds i ⟨some p, (L.ends i).tail⟩

/-- Unlink and return the first node of queue `i`. -/
def popFront (L : Links ι P) (i : ι) : Option P × Links ι P :=
  match (L.ends i).head with
  | none => (none, L)
  | some p =>
      let head := L.next p
      let tail := if head = none then none else (L.ends i).tail
      (some p, (L.setEnds i ⟨head, tail⟩).setNext p none)

/-- Linking into one queue leaves the ends of the others alone. -/
theorem pushBack_ends_of_ne (L : Links ι P) {i j : ι} (p : P) (hj : j ≠ i) :
    (L.pushBack i p).ends j = L.ends j := by
  unfold pushBack
  dsimp only [setNext_ends]
  cases (L.ends i).tail <;> simp [Function.update_of_ne hj]

/-- Unlinking from one queue leaves the ends of the others alone. -/
theorem popFront_ends_of_ne (L : Links ι P) {i j : ι} (hj : j ≠ i) :
    (L.popFront i).2.ends j = L.ends j := by
  unfold popFront
  cases (L.ends i).head <;> simp [Function.update_of_ne hj]

/-- Unlink `p` from queue `i`, given its predecessor (`none` if `p` is first). -/
def unlink (L : Links ι P) (i : ι) (prev : Option P) (p : P) : Links ι P :=
  let L := match prev with
    | none => L.setEnds i ⟨L.next p, (L.ends i).tail⟩
    | some c => L.setNext c (L.next p)
  let L := if (L.ends i).tail = some p then L.setEnds i ⟨(L.ends i).head, prev⟩ else L
  L.setNext p none

/-- Link `p` right after the node `c` of queue `i`. -/
def insertAfter (L : Links ι P) (i : ι) (c p : P) : Links ι P :=
  let next := L.next c
  let L := (L.setNext p next).setNext c (some p)
  if next = none then L.setEnds i ⟨(L.ends i).head, some p⟩ else L

/-- Walk from the node `c` to the last node before the first one that satisfies
`stop`; `none` when `fuel` nodes do not reach it. -/
def seekBefore (L : Links ι P) (stop : P → Bool) : Nat → P → Option P
  | 0, _ => none
  | fuel + 1, c =>
      match L.next c with
      | none => some c
      | some d => if stop d then some c else seekBefore L stop fuel d

end Links

/-! ## The list operation behind each pointer operation -/

namespace Represents

open Links

variable [DecidableEq ι] [DecidableEq P] {L : Links ι P} {ls : ι → List P}

omit [DecidableEq ι] in
/-- The pointer of a node that is in no queue does not matter. -/
theorem setNext (h : Represents L ls) {p : P} (hp : ∀ j, p ∉ ls j) (o : Option P) :
    Represents (L.setNext p o) ls :=
  ⟨fun j ↦ (h.chain j).update_of_notMem (hp j), h.tail, h.nodup, h.disjoint⟩

/-- Appending a node that is in no queue. -/
theorem pushBack (h : Represents L ls) (i : ι) {p : P} (hp : ∀ j, p ∉ ls j) :
    Represents (L.pushBack i p) (Function.update ls i (ls i ++ [p])) := by
  have hmem : ∀ x ∈ ls i ++ [p], x ∈ ls i ∨ ∀ j, x ∉ ls j := by
    intro x hx
    rcases List.mem_append.mp hx with hx | hx
    · exact .inl hx
    · exact .inr (List.mem_singleton.mp hx ▸ hp)
  have hnodup : (ls i ++ [p]).Nodup := by
    rw [List.nodup_append]
    exact ⟨h.nodup i, List.nodup_singleton p, fun a ha b hb ↦ by
      rw [List.mem_singleton.mp hb]; exact fun e ↦ hp i (e ▸ ha)⟩
  cases htail : (L.ends i).tail with
  | none =>
      have hnil : ls i = [] := List.getLast?_eq_none_iff.mp ((h.tail i).symm.trans htail)
      have hL : L.pushBack i p = (L.setNext p none).setEnds i ⟨some p, some p⟩ := by
        simp [Links.pushBack, htail]
      rw [hL]
      refine h.update ?_ ?_ ?_ ?_ hnodup hmem
      · intro j hj; simp [Function.update_of_ne hj]
      · intro j _ x hx
        have hxp : x ≠ p := fun e ↦ hp j (e ▸ hx)
        exact Function.update_of_ne hxp _ _
      · simp [hnil]
      · simp [hnil]
  | some t =>
      have hlast : (ls i).getLast? = some t := (h.tail i).symm.trans htail
      obtain ⟨pre, hpre⟩ := List.getLast?_eq_some_iff.mp hlast
      have htmem : t ∈ ls i := by rw [hpre]; simp
      have htp : t ≠ p := fun e ↦ hp i (e ▸ htmem)
      have hL : L.pushBack i p =
          ((L.setNext p none).setNext t (some p)).setEnds i ⟨(L.ends i).head, some p⟩ := by
        simp [Links.pushBack, htail]
      rw [hL]
      refine h.update ?_ ?_ ?_ ?_ hnodup hmem
      · intro j hj; simp [Function.update_of_ne hj]
      · intro j hj x hx
        have hxt : x ≠ t := fun e ↦ h.disjoint i j (Ne.symm hj) t htmem (e ▸ hx)
        have hxp : x ≠ p := fun e ↦ hp j (e ▸ hx)
        simp [Function.update_of_ne hxt, Function.update_of_ne hxp]
      · have hc := (h.chain i).update_of_notMem (v := none) (hp i)
        rw [hpre] at hc ⊢
        have htpre : t ∉ pre := by
          have hnd := h.nodup i
          rw [hpre, List.nodup_append] at hnd
          exact fun hmem ↦ hnd.2.2 t hmem t (List.mem_singleton_self t) rfl
        have hspl := hc.splice htpre (some p) [p] (by simp [Function.update_of_ne htp.symm])
        simpa using hspl
      · simp

/-- Prepending a node that is in no queue to a nonempty queue. -/
theorem pushFront (h : Represents L ls) (i : ι) {p : P} (hp : ∀ j, p ∉ ls j)
    (hne : ls i ≠ []) : Represents (L.pushFront i p) (Function.update ls i (p :: ls i)) := by
  refine h.update ?_ ?_ ?_ ?_ (List.nodup_cons.mpr ⟨hp i, h.nodup i⟩) ?_
  · intro j hj; simp [Links.pushFront, Function.update_of_ne hj]
  · intro j _ x hx
    have hxp : x ≠ p := fun e ↦ hp j (e ▸ hx)
    exact Function.update_of_ne hxp _ _
  · refine ⟨by simp [Links.pushFront], ?_⟩
    simpa [Links.pushFront] using (h.chain i).update_of_notMem (hp i)
  · obtain ⟨x, xs, hx⟩ := List.exists_cons_of_ne_nil hne
    have ht := h.tail i
    rw [hx] at ht ⊢
    simpa [Links.pushFront, List.getLast?_cons_cons] using ht
  · intro x hx
    rcases List.mem_cons.mp hx with rfl | hx
    · exact .inr hp
    · exact .inl hx

/-- Popping an empty queue changes nothing. -/
theorem popFront_nil (h : Represents L ls) {i : ι} (hl : ls i = []) :
    L.popFront i = (none, L) := by
  have hhead : (L.ends i).head = none := by rw [h.head_eq, hl]; rfl
  simp [Links.popFront, hhead]

/-- Popping a nonempty queue returns its first node and leaves its tail. -/
theorem popFront_cons (h : Represents L ls) {i : ι} {p : P} {l : List P} (hl : ls i = p :: l) :
    (L.popFront i).1 = some p ∧
      Represents (L.popFront i).2 (Function.update ls i l) := by
  have hhead : (L.ends i).head = some p := by rw [h.head_eq, hl]; rfl
  have hchain := h.chain i
  have hnd := h.nodup i
  rw [hl] at hchain hnd
  obtain ⟨hpl, hndl⟩ := List.nodup_cons.mp hnd
  have hpop : L.popFront i = (some p, (L.setEnds i
      ⟨L.next p, if L.next p = none then none else (L.ends i).tail⟩).setNext p none) := by
    simp [Links.popFront, hhead]
  rw [hpop]
  refine ⟨rfl, h.update ?_ ?_ ?_ ?_ hndl ?_⟩
  · intro j hj; simp [Function.update_of_ne hj]
  · intro j hj x hx
    have hxp : x ≠ p := fun e ↦ h.disjoint j i hj x hx (by rw [hl, e]; exact List.mem_cons_self)
    exact Function.update_of_ne hxp _ _
  · simpa using hchain.2.update_of_notMem hpl
  · cases l with
    | nil =>
        have hnone : L.next p = none := hchain.2
        simp [hnone]
    | cons y ys =>
        have ht := h.tail i
        rw [hl, List.getLast?_cons_cons] at ht
        simpa [hchain.2.1] using ht
  · intro x hx; exact .inl (hl ▸ List.mem_cons_of_mem _ hx)

/-- Unlinking a node, given its predecessor. -/
theorem unlink (h : Represents L ls) {i : ι} {pre post : List P} {p : P}
    (hl : ls i = pre ++ p :: post) :
    Represents (L.unlink i pre.getLast? p) (Function.update ls i (pre ++ post)) := by
  have hchain := h.chain i
  have hnd := h.nodup i
  have htail := h.tail i
  rw [hl] at hchain hnd htail
  have hnext : Chain L.next (L.next p) post := hchain.next_of_append
  obtain ⟨hndpre, hndpost, hdisj⟩ := List.nodup_append.mp hnd
  obtain ⟨hppost, hndpost⟩ := List.nodup_cons.mp hndpost
  have hppre : p ∉ pre := fun hm ↦ hdisj p hm p List.mem_cons_self rfl
  have hnd' : (pre ++ post).Nodup := List.nodup_append.mpr
    ⟨hndpre, hndpost, fun a ha b hb ↦ hdisj a ha b (List.mem_cons_of_mem _ hb)⟩
  have hmem : ∀ x ∈ pre ++ post, x ∈ ls i ∨ ∀ j, x ∉ ls j := by
    intro x hx
    rw [hl]
    refine .inl (List.mem_append.mpr ?_)
    exact (List.mem_append.mp hx).imp_right (List.mem_cons_of_mem _)
  have hpi : p ∈ ls i := by rw [hl]; simp
  have hlast : ∀ q, (pre ++ p :: post).getLast? = some q → (q = p ↔ post = []) := by
    intro q hq
    cases post with
    | nil => simpa [eq_comm] using hq
    | cons y ys =>
        rw [List.getLast?_append_of_ne_nil _ (by simp), List.getLast?_cons_cons] at hq
        have hmemq : q ∈ y :: ys := List.mem_of_getLast? hq
        simpa using fun e : q = p ↦ hppost (e ▸ hmemq)
  have htailp : (L.ends i).tail = some p ↔ post = [] := by
    rw [htail]
    constructor
    · exact fun he ↦ (hlast p he).mp rfl
    · rintro rfl; simp
  rcases List.eq_nil_or_concat pre with rfl | ⟨pre', c, rfl⟩
  · -- the node is first: the head of the queue moves to its successor
    refine h.update ?_ ?_ ?_ ?_ hnd' hmem
    · intro j hj
      by_cases ht : (L.ends i).tail = some p <;>
        simp [Links.unlink, ht, Function.update_of_ne hj]
    · intro j hj x hx
      have hxp : x ≠ p := fun e ↦ h.disjoint i j (Ne.symm hj) p hpi (e ▸ hx)
      by_cases ht : (L.ends i).tail = some p <;>
        simp [Links.unlink, ht, Function.update_of_ne hxp]
    · have hc : Chain (Function.update L.next p none) (L.next p) post :=
        hnext.update_of_notMem hppost
      by_cases ht : (L.ends i).tail = some p <;> simpa [Links.unlink, ht] using hc
    · by_cases ht : (L.ends i).tail = some p
      · simp [Links.unlink, ht, htailp.mp ht]
      · obtain ⟨y, ys, rfl⟩ := List.exists_cons_of_ne_nil (mt htailp.mpr ht)
        have : (L.ends i).tail = (y :: ys).getLast? := by
          simpa [List.getLast?_cons_cons] using htail
        simpa [Links.unlink, ht] using this
  · -- the predecessor `c` bypasses the node
    have hlc : (pre'.concat c).getLast? = some c := by simp
    have hcp : c ≠ p := fun e ↦ hppre (by simp [e])
    have hci : c ∈ ls i := by rw [hl]; simp
    have hcpre : c ∉ pre' := by
      rw [List.concat_eq_append, List.nodup_append] at hndpre
      exact fun hm ↦ hndpre.2.2 c hm c (List.mem_singleton_self c) rfl
    have hcpost : c ∉ post := fun hm ↦
      hdisj c (by simp) c (List.mem_cons_of_mem _ hm) rfl
    rw [hlc]
    refine h.update ?_ ?_ ?_ ?_ hnd' hmem
    · intro j hj
      by_cases ht : (L.ends i).tail = some p <;>
        simp [Links.unlink, ht, Function.update_of_ne hj]
    · intro j hj x hx
      have hxp : x ≠ p := fun e ↦ h.disjoint i j (Ne.symm hj) p hpi (e ▸ hx)
      have hxc : x ≠ c := fun e ↦ h.disjoint i j (Ne.symm hj) c hci (e ▸ hx)
      by_cases ht : (L.ends i).tail = some p <;>
        simp [Links.unlink, ht, Function.update_of_ne hxp, Function.update_of_ne hxc]
    · have hc : Chain (Function.update L.next c (L.next p)) (L.ends i).head
          (pre' ++ c :: post) := by
        rw [List.concat_eq_append, List.append_assoc] at hchain
        exact hchain.splice hcpre (L.next p) post (hnext.update_of_notMem hcpost)
      have hp' : p ∉ pre' ++ c :: post := by
        simp only [List.mem_append, List.mem_cons, not_or]
        exact ⟨fun hm ↦ hppre (by simp [hm]), hcp.symm, hppost⟩
      have hc' := hc.update_of_notMem (v := none) hp'
      by_cases ht : (L.ends i).tail = some p <;> simpa [Links.unlink, ht] using hc'
    · by_cases ht : (L.ends i).tail = some p
      · simp [Links.unlink, ht, htailp.mp ht]
      · obtain ⟨y, ys, rfl⟩ := List.exists_cons_of_ne_nil (mt htailp.mpr ht)
        have : (L.ends i).tail = (y :: ys).getLast? := by
          rw [htail, List.getLast?_append_of_ne_nil _ (by simp), List.getLast?_cons_cons]
        rw [List.getLast?_append_of_ne_nil _ (by simp)]
        simpa [Links.unlink, ht] using this

/-- Inserting a node that is in no queue after a node of queue `i`. -/
theorem insertAfter (h : Represents L ls) {i : ι} {pre post : List P} {c p : P}
    (hl : ls i = pre ++ c :: post) (hp : ∀ j, p ∉ ls j) :
    Represents (L.insertAfter i c p) (Function.update ls i (pre ++ c :: p :: post)) := by
  have hchain := h.chain i
  have hnd := h.nodup i
  have htail := h.tail i
  have hpi := hp i
  rw [hl] at hchain hnd htail hpi
  have hnext : Chain L.next (L.next c) post := hchain.next_of_append
  have hci : c ∈ ls i := by rw [hl]; simp
  simp only [List.mem_append, List.mem_cons, not_or] at hpi
  obtain ⟨hppre, hpc, hppost⟩ := hpi
  obtain ⟨hndpre, hndpost, hdisj⟩ := List.nodup_append.mp hnd
  obtain ⟨hcpost, hndpost'⟩ := List.nodup_cons.mp hndpost
  have hcpre : c ∉ pre := fun hm ↦ hdisj c hm c List.mem_cons_self rfl
  have hnone : L.next c = none ↔ post = [] := by
    rw [hnext.head_eq, List.head?_eq_none_iff]
  refine h.update ?_ ?_ ?_ ?_ ?_ ?_
  · intro j hj
    by_cases hn : L.next c = none <;> simp [Links.insertAfter, hn, Function.update_of_ne hj]
  · intro j hj x hx
    have hxp : x ≠ p := fun e ↦ hp j (e ▸ hx)
    have hxc : x ≠ c := fun e ↦ h.disjoint i j (Ne.symm hj) c hci (e ▸ hx)
    by_cases hn : L.next c = none <;>
      simp [Links.insertAfter, hn, Function.update_of_ne hxp, Function.update_of_ne hxc]
  · have hc : Chain (Function.update L.next p (L.next c)) (L.ends i).head (pre ++ c :: post) :=
      hchain.update_of_notMem (by simp [hppre, hpc, hppost])
    have hrest : Chain (Function.update (Function.update L.next p (L.next c)) c (some p))
        (some p) (p :: post) := by
      refine ⟨rfl, ?_⟩
      rw [Function.update_of_ne hpc, Function.update_self]
      exact (hnext.update_of_notMem hppost).update_of_notMem hcpost
    have hspl := hc.splice hcpre (some p) (p :: post) hrest
    by_cases hn : L.next c = none
    · rw [hn] at hspl
      simpa [Links.insertAfter, hn] using hspl
    · simpa [Links.insertAfter, hn] using hspl
  · by_cases hn : L.next c = none
    · simp [Links.insertAfter, hn, hnone.mp hn]
    · obtain ⟨y, ys, rfl⟩ := List.exists_cons_of_ne_nil (mt hnone.mpr hn)
      have : (L.ends i).tail = (y :: ys).getLast? := by
        rw [htail, List.getLast?_append_of_ne_nil _ (by simp), List.getLast?_cons_cons]
      rw [List.getLast?_append_of_ne_nil _ (by simp), List.getLast?_cons_cons]
      simpa [Links.insertAfter, hn, List.getLast?_cons_cons] using this
  · rw [List.nodup_append]
    refine ⟨hndpre, List.nodup_cons.mpr ⟨?_, List.nodup_cons.mpr ⟨hppost, hndpost'⟩⟩, ?_⟩
    · simpa using ⟨fun e ↦ hpc e.symm, hcpost⟩
    · intro a ha b hb
      simp only [List.mem_cons] at hb
      rcases hb with rfl | rfl | hb
      · exact hdisj a ha _ List.mem_cons_self
      · exact fun e ↦ hppre (e ▸ ha)
      · exact hdisj a ha b (List.mem_cons_of_mem _ hb)
  · intro x hx
    simp only [List.mem_append, List.mem_cons] at hx
    rcases hx with hx | rfl | rfl | hx
    · exact .inl (by rw [hl]; simp [hx])
    · exact .inl hci
    · exact .inr hp
    · exact .inl (by rw [hl]; simp [hx])

end Represents

/-- The walk stops at the last node of the longest prefix in which no node after
the first satisfies `stop`. -/
theorem Links.seekBefore_eq [DecidableEq ι] [DecidableEq P] {L : Links ι P} {stop : P → Bool}
    {post : List P} {fuel : Nat} {c : P} (h : Chain L.next (L.next c) post)
    (hfuel : post.length < fuel) :
    L.seekBefore stop fuel c =
      (c :: post.takeWhile fun x ↦ !stop x).getLast? := by
  induction post generalizing fuel c with
  | nil =>
      obtain ⟨fuel, rfl⟩ := Nat.exists_eq_succ_of_ne_zero (Nat.ne_of_gt hfuel)
      simp [seekBefore, Chain.nil_iff.mp h]
  | cons d post ih =>
      obtain ⟨fuel, rfl⟩ := Nat.exists_eq_succ_of_ne_zero (Nat.ne_of_gt (Nat.zero_lt_of_lt hfuel))
      have hd : L.next c = some d := h.1
      by_cases hs : stop d
      · simp [seekBefore, hd, hs]
      · have hlen : post.length < fuel := Nat.lt_of_succ_lt_succ hfuel
        simp [seekBefore, hd, hs, ih h.2 hlen, List.getLast?_cons_cons]

/-- Inserting a node that is in no queue before the first node that satisfies
`stop`, in a queue whose first node does not. -/
theorem Represents.insertBefore [DecidableEq ι] [DecidableEq P] {L : Links ι P}
    {ls : ι → List P} (h : Represents L ls) {i : ι} {x p : P} {xs : List P} {fuel : Nat}
    (stop : P → Bool) (hl : ls i = x :: xs) (hx : stop x = false) (hp : ∀ j, p ∉ ls j)
    (hfuel : xs.length < fuel) :
    ∃ c, L.seekBefore stop fuel x = some c ∧
      Represents (L.insertAfter i c p) (Function.update ls i
        ((ls i).takeWhile (fun y ↦ !stop y) ++ p :: (ls i).dropWhile fun y ↦ !stop y)) := by
  have hchain := h.chain i
  rw [hl] at hchain
  have hseek : L.seekBefore stop fuel x = (x :: xs.takeWhile fun y ↦ !stop y).getLast? :=
    Links.seekBefore_eq hchain.2 hfuel
  have hcut : (x :: xs.takeWhile fun y ↦ !stop y) ++ (xs.dropWhile fun y ↦ !stop y) = ls i := by
    rw [hl, List.cons_append, List.takeWhile_append_dropWhile]
  obtain ⟨c, hc⟩ : ∃ c, (x :: xs.takeWhile fun y ↦ !stop y).getLast? = some c :=
    ⟨_, List.getLast?_eq_getLast_of_ne_nil (by simp)⟩
  obtain ⟨pre, hpre⟩ := List.getLast?_eq_some_iff.mp hc
  refine ⟨c, hseek.trans hc, ?_⟩
  have hsplit : ls i = pre ++ c :: (xs.dropWhile fun y ↦ !stop y) := by
    rw [← hcut, hpre, List.append_assoc, List.singleton_append]
  have hlist : (ls i).takeWhile (fun y ↦ !stop y) ++ p :: (ls i).dropWhile (fun y ↦ !stop y) =
      pre ++ c :: p :: (xs.dropWhile fun y ↦ !stop y) := by
    have htake : (ls i).takeWhile (fun y ↦ !stop y) = pre ++ [c] := by
      rw [hl, List.takeWhile_cons_of_pos (by simp [hx]), hpre]
    have hdrop : (ls i).dropWhile (fun y ↦ !stop y) = xs.dropWhile fun y ↦ !stop y := by
      rw [hl, List.dropWhile_cons_of_pos (by simp [hx])]
    rw [htake, hdrop, List.append_assoc, List.singleton_append]
  rw [hlist]
  exact h.insertAfter hsplit hp

end DemosOS.Lib
