import Verben.Ae.Kernel

/-!
# What the kernel watches

The kernel has what the event loop's table has, for epoll and for kqueue, and no call of
`epoll_ctl` or `kevent` fails, as long as no descriptor is closed with events, the descriptor of a
new event is open, and no more is deleted than there is (`ae_kernel_follows_iff`).
-/

namespace Verben

open Transition

variable {P D : Type} {k k' : AeKernel P D} {fd : Nat} {mask : AeMask}

/-- The kernel watches what is registered. -/
def AeKernel.Right (k : AeKernel P D) : Prop :=
  ∀ fd, k.epoll fd = (if (k.el.events fd).mask = aeNone then none else some (k.el.events fd).mask) ∧
    k.kqueue fd = (k.el.events fd).mask

/-- And what is registered is open. -/
structure AeKernel.Inv (k : AeKernel P D) : Prop where
  right : k.Right
  isOpen : ∀ fd, (k.el.events fd).mask ≠ aeNone → k.fdOpen fd = true

/-- A call after which the kernel still follows. -/
def AeKernel.Tidy (k : AeKernel P D) : AeFdCall P D → Prop
  | .opened _ => True
  | .closed fd => (k.el.events fd).mask = aeNone
  | .create fd mask _ _ room => fd < aeSetsize → room = true →
      k.fdOpen fd = true ∧ (mask = aeNone → (k.el.events fd).mask ≠ aeNone)
  | .delete fd mask => fd < aeSetsize → (k.el.events fd).mask ≠ aeNone →
      (k.el.events fd).mask.or mask = (k.el.events fd).mask

/-! ## Masks -/

theorem AeMask.or_comm (a b : AeMask) : a.or b = b.or a := by
  unfold AeMask.or
  rw [Bool.or_comm a.readable, Bool.or_comm a.writable]

theorem AeMask.or_eq_none {a b : AeMask} : a.or b = aeNone ↔ a = aeNone ∧ b = aeNone := by
  rcases a with ⟨ra, wa⟩
  rcases b with ⟨rb, wb⟩
  simp only [AeMask.or, aeNone, AeMask.mk.injEq, Bool.or_eq_false_iff]
  tauto

theorem AeMask.or_readable {mask : AeMask} (set : mask.readable = true) :
    mask.or aeReadable = mask := by
  rcases mask with ⟨r, w⟩
  cases set
  cases w <;> rfl

theorem AeMask.or_writable {mask : AeMask} (set : mask.writable = true) :
    mask.or aeWritable = mask := by
  rcases mask with ⟨r, w⟩
  cases set
  cases r <;> rfl

/-- What is left behind the read event is the write event. -/
theorem AeMask.writable_of_left {mask : AeMask} (left : mask.andNot aeReadable ≠ aeNone) :
    (mask.andNot aeReadable).writable = true := by
  rcases mask with ⟨_ | _, _ | _⟩
  case false.true | true.true => rfl
  all_goals exact absurd rfl left

theorem AeMask.andNot_andNot (mask : AeMask) :
    (mask.andNot aeReadable).andNot aeWritable = aeNone := by
  rcases mask with ⟨_ | _, _ | _⟩ <;> rfl

/-! ## The calls -/

theorem AeKernel.inv_init (fdOpen : Nat → Bool) : (AeKernel.init fdOpen : AeKernel P D).Inv where
  right := fun _ => ⟨rfl, rfl⟩
  isOpen := fun _ some => absurd rfl some

/-- The kernel after a call about one descriptor. -/
theorem AeKernel.Right.update {k' : AeKernel P D} (right : k.Right)
    (events : ∀ other, other ≠ fd → k'.el.events other = k.el.events other)
    {interest : Option AeMask} (epoll : k'.epoll = Function.update k.epoll fd interest)
    (kqueue : k'.kqueue = Function.update k.kqueue fd mask)
    (now : (k'.el.events fd).mask = mask)
    (here : interest = if mask = aeNone then none else some mask) : k'.Right := by
  intro other
  by_cases same : other = fd
  · rw [same, now, epoll, kqueue, Function.update_self, Function.update_self]
    exact ⟨here, rfl⟩
  · rw [events other same, epoll, kqueue, Function.update_of_ne same, Function.update_of_ne same]
    exact right other

theorem aeKqueueAdd_open {filters : KqueueSet} {fdOpen : Nat → Bool} (isOpen : fdOpen fd = true)
    (mask : AeMask) :
    aeKqueueAdd filters fdOpen fd mask =
      some (Function.update filters fd ((filters fd).or mask)) := by
  have closed : ¬ fdOpen fd = false := by rw [isOpen]; exact Bool.noConfusion
  have one : ∀ filters : KqueueSet, ∀ filter,
      keventAdd filters fdOpen fd filter =
        some (Function.update filters fd ((filters fd).or filter)) :=
    fun filters filter => if_neg closed
  rcases mask with ⟨_ | _, _ | _⟩ <;>
    simp [aeKqueueAdd, one, aeReadable, aeWritable, AeMask.or, Function.update_eq_self]

theorem keventDelete_open {filters : KqueueSet} {fdOpen : Nat → Bool} (isOpen : fdOpen fd = true)
    (filter : AeMask) :
    keventDelete filters fdOpen fd filter =
      if (filters fd).or filter = filters fd then
        some (Function.update filters fd ((filters fd).andNot filter))
      else none := by
  unfold keventDelete
  rw [isOpen]
  by_cases there : (filters fd).or filter = filters fd
  · rw [if_pos there, if_neg]
    rintro (closed | absent)
    · cases closed
    · exact absent there
  · rw [if_neg there, if_pos (.inr there)]

/-- Two filters are deleted one after the other. -/
theorem AeMask.or_both_iff (filters : AeMask) :
    filters.or ⟨true, true⟩ = filters ↔
      filters.or aeReadable = filters ∧
        (filters.andNot aeReadable).or aeWritable = filters.andNot aeReadable := by
  rcases filters with ⟨_ | _, _ | _⟩ <;> decide

theorem AeMask.andNot_both (filters : AeMask) :
    filters.andNot ⟨true, true⟩ = (filters.andNot aeReadable).andNot aeWritable := by
  rcases filters with ⟨_ | _, _ | _⟩ <;> rfl

theorem aeKqueueDel_open {filters : KqueueSet} {fdOpen : Nat → Bool} (isOpen : fdOpen fd = true)
    (mask : AeMask) :
    aeKqueueDel filters fdOpen fd mask =
      if (filters fd).or mask = filters fd then
        some (Function.update filters fd ((filters fd).andNot mask))
      else none := by
  rcases mask with ⟨_ | _, _ | _⟩
  case false.false =>
    have same : (filters fd).or ⟨false, false⟩ = filters fd := by
      simp [AeMask.or]
    have same' : (filters fd).andNot ⟨false, false⟩ = filters fd := by
      simp [AeMask.andNot]
    rw [if_pos same, same', Function.update_eq_self]
    rfl
  case false.true => exact keventDelete_open isOpen aeWritable
  case true.false =>
    change (keventDelete filters fdOpen fd aeReadable).bind some = _
    rw [Option.bind_fun_some, keventDelete_open isOpen]
    rfl
  case true.true =>
    change (keventDelete filters fdOpen fd aeReadable).bind
      (fun filters => keventDelete filters fdOpen fd aeWritable) = _
    rw [keventDelete_open isOpen, AeMask.andNot_both]
    by_cases first : (filters fd).or aeReadable = filters fd
    · rw [if_pos first, Option.bind_some, keventDelete_open isOpen, Function.update_self,
        Function.update_idem]
      refine if_congr ?_ rfl rfl
      rw [AeMask.or_both_iff]
      exact ⟨fun second => ⟨first, second⟩, And.right⟩
    · rw [if_neg first, Option.bind_none, if_neg]
      exact fun both => first ((AeMask.or_both_iff _).mp both).1

/-- `ae_api_add_event`, where the kernel follows. -/
theorem AeKernel.Right.epollAdd (right : k.Right) (isOpen : k.fdOpen fd = true) (mask : AeMask) :
    aeEpollAdd k.epoll k.fdOpen (k.el.events fd).mask fd mask =
      some (Function.update k.epoll fd (some ((k.el.events fd).mask.or mask))) := by
  have here := (right fd).1
  have closed : ¬ k.fdOpen fd = false := by rw [isOpen]; exact Bool.noConfusion
  unfold aeEpollAdd epollCtl
  rw [if_neg closed, AeMask.or_comm mask]
  by_cases new : (k.el.events fd).mask = aeNone
  · rw [if_pos new] at here
    rw [if_pos new, here]
  · rw [if_neg new] at here
    rw [if_neg new, here]

/-- `ae_api_del_event`, where the kernel follows. -/
theorem AeKernel.Right.epollDel (right : k.Right) (isOpen : k.fdOpen fd = true)
    (registered : (k.el.events fd).mask ≠ aeNone) (mask : AeMask) :
    aeEpollDel k.epoll k.fdOpen ((k.el.events fd).mask.andNot mask) fd mask =
      some (Function.update k.epoll fd
        (if (k.el.events fd).mask.andNot mask = aeNone then none
          else some ((k.el.events fd).mask.andNot mask))) := by
  have here := (right fd).1
  have closed : ¬ k.fdOpen fd = false := by rw [isOpen]; exact Bool.noConfusion
  have twice : ((k.el.events fd).mask.andNot mask).andNot mask =
      (k.el.events fd).mask.andNot mask := by
    simp [AeMask.andNot]
  rw [if_neg registered] at here
  unfold aeEpollDel epollCtl
  simp only [twice, if_neg closed, here]
  by_cases last : (k.el.events fd).mask.andNot mask = aeNone
  · rw [if_neg (not_not_intro last), if_pos last]
  · rw [if_pos last, if_neg last]

theorem AeKernel.step_create {proc : P} {clientData : D} {room : Bool} {el : AeEventLoop P D}
    (created : aeCreateFileEvent k.el fd mask proc clientData room = some el) :
    k.step (.create fd mask proc clientData room) =
      (aeEpollAdd k.epoll k.fdOpen (k.el.events fd).mask fd mask).bind fun epoll =>
        (aeKqueueAdd k.kqueue k.fdOpen fd mask).bind fun kqueue =>
          some ⟨el, k.fdOpen, epoll, kqueue⟩ := by
  simp only [AeKernel.step, created]
  rfl

theorem AeKernel.step_delete (inside : fd < aeSetsize) (registered : (k.el.events fd).mask ≠ aeNone)
    (mask : AeMask) :
    k.step (.delete fd mask) =
      (aeEpollDel k.epoll k.fdOpen ((k.el.events fd).mask.andNot mask) fd mask).bind fun epoll =>
        (aeKqueueDel k.kqueue k.fdOpen fd mask).bind fun kqueue =>
          some ⟨aeDeleteFileEvent k.el fd mask, k.fdOpen, epoll, kqueue⟩ := by
  have busy : ¬ (aeSetsize ≤ fd ∨ (k.el.events fd).mask = aeNone) := by
    rintro (behind | quiet)
    · exact Nat.not_le.mpr inside behind
    · exact registered quiet
  simp only [AeKernel.step, if_neg busy, mask_aeDeleteFileEvent k.el inside]
  rfl

/-- What a call does to the event loop, whatever the kernel has. -/
theorem AeKernel.el_of_delete (stepped : k.step (.delete fd mask) = some k') :
    k'.el = aeDeleteFileEvent k.el fd mask ∧ k'.fdOpen = k.fdOpen := by
  by_cases idle : aeSetsize ≤ fd ∨ (k.el.events fd).mask = aeNone
  · have same : k.step (.delete fd mask) = some k := if_pos idle
    cases same.symm.trans stepped
    refine ⟨?_, rfl⟩
    unfold aeDeleteFileEvent
    rcases idle with behind | quiet
    · rw [if_pos behind]
    · split
      · rfl
      · exact (if_pos quiet).symm
  · rw [AeKernel.step_delete (Nat.lt_of_not_le fun behind => idle (.inl behind))
      fun quiet => idle (.inr quiet)] at stepped
    obtain ⟨epoll, -, stepped⟩ := Option.bind_eq_some_iff.mp stepped
    obtain ⟨kqueue, -, stepped⟩ := Option.bind_eq_some_iff.mp stepped
    cases stepped
    exact ⟨rfl, rfl⟩

theorem AeKernel.el_of_create {proc : P} {clientData : D} {room : Bool}
    (stepped : k.step (.create fd mask proc clientData room) = some k') :
    k'.el = (aeCreateFileEvent k.el fd mask proc clientData room).getD k.el ∧
      k'.fdOpen = k.fdOpen := by
  cases created : aeCreateFileEvent k.el fd mask proc clientData room with
  | none =>
      simp only [AeKernel.step, created] at stepped
      cases stepped
      exact ⟨rfl, rfl⟩
  | some el =>
      rw [AeKernel.step_create created] at stepped
      obtain ⟨epoll, -, stepped⟩ := Option.bind_eq_some_iff.mp stepped
      obtain ⟨kqueue, -, stepped⟩ := Option.bind_eq_some_iff.mp stepped
      cases stepped
      exact ⟨rfl, rfl⟩

/-- A tidy call has its result, and the kernel follows. -/
theorem AeKernel.Inv.step {call : AeFdCall P D} (inv : k.Inv) (tidy : k.Tidy call) :
    ∃ k', k.step call = some k' ∧ k'.Inv := by
  cases call with
  | opened fd =>
      refine ⟨_, rfl, inv.right, fun other registered => ?_⟩
      by_cases same : other = fd
      · rw [same]
        exact Function.update_self ..
      · exact (Function.update_of_ne same ..).trans (inv.isOpen other registered)
  | closed fd =>
      have quiet : (k.el.events fd).mask = aeNone := tidy
      refine ⟨_, rfl, inv.right.update (fun _ _ => rfl) rfl rfl quiet rfl, fun other registered => ?_⟩
      have ne : other ≠ fd := by
        rintro rfl
        exact registered quiet
      exact (Function.update_of_ne ne ..).trans (inv.isOpen other registered)
  | create fd mask proc clientData room =>
      cases created : aeCreateFileEvent k.el fd mask proc clientData room with
      | none =>
          refine ⟨k, ?_, inv⟩
          simp only [AeKernel.step, created]
      | some el =>
          have inside := events_of_aeCreateFileEvent created
          have room' : room = true := by
            unfold aeCreateFileEvent at created
            rw [if_neg (Nat.not_le.mpr inside.1)] at created
            by_contra full
            rw [if_neg full] at created
            cases created
          obtain ⟨isOpen, some'⟩ := tidy inside.1 room'
          have now : (el.events fd).mask = (k.el.events fd).mask.or mask := by
            rw [inside.2, Function.update_self]
            rfl
          have others : ∀ other, other ≠ fd → el.events other = k.el.events other :=
            fun other ne => events_of_aeCreateFileEvent_ne created ne
          have registered : (k.el.events fd).mask.or mask ≠ aeNone := fun empty =>
            some' (AeMask.or_eq_none.mp empty).2 (AeMask.or_eq_none.mp empty).1
          rw [AeKernel.step_create created, inv.right.epollAdd isOpen, aeKqueueAdd_open isOpen,
            (inv.right fd).2]
          refine ⟨⟨el, _, _, _⟩, rfl,
            inv.right.update others rfl rfl now (if_neg registered).symm, ?_⟩
          intro other registered
          by_cases same : other = fd
          · rw [same]
            exact isOpen
          · rw [others other same] at registered
            exact inv.isOpen other registered
  | delete fd mask =>
      by_cases idle : aeSetsize ≤ fd ∨ (k.el.events fd).mask = aeNone
      · exact ⟨k, if_pos idle, inv⟩
      · have inside : fd < aeSetsize := Nat.lt_of_not_le fun behind => idle (.inl behind)
        have registered : (k.el.events fd).mask ≠ aeNone := fun quiet => idle (.inr quiet)
        have isOpen := inv.isOpen fd registered
        have now := congrArg AeFileEvent.mask (mask_aeDeleteFileEvent k.el inside mask)
        have others : ∀ other, other ≠ fd →
            (aeDeleteFileEvent k.el fd mask).events other = k.el.events other :=
          fun other ne => events_aeDeleteFileEvent_ne k.el mask ne
        have there : (k.kqueue fd).or mask = k.kqueue fd := by
          rw [(inv.right fd).2]
          exact tidy inside registered
        rw [AeKernel.step_delete inside registered, inv.right.epollDel isOpen registered,
          aeKqueueDel_open isOpen, if_pos there, (inv.right fd).2]
        refine ⟨⟨aeDeleteFileEvent k.el fd mask, _, _, _⟩, rfl,
          inv.right.update others rfl rfl now rfl, ?_⟩
        intro other registered
        by_cases same : other = fd
        · rw [same]
          exact isOpen
        · rw [others other same] at registered
          exact inv.isOpen other registered

/-- Behind a call that is not tidy the kernel does not follow, or the call fails. -/
theorem AeKernel.Inv.tidy {call : AeFdCall P D} (inv : k.Inv) (stepped : k.step call = some k')
    (right : k'.Right) : k.Tidy call := by
  cases call with
  | opened fd => trivial
  | closed fd =>
      cases stepped
      exact (right fd).2.symm.trans (Function.update_self ..)
  | create fd mask proc clientData room =>
      intro inside room'
      obtain ⟨el, created⟩ : ∃ el, aeCreateFileEvent k.el fd mask proc clientData room = some el :=
        ⟨_, (if_neg (Nat.not_le.mpr inside)).trans (if_pos room')⟩
      rw [AeKernel.step_create created] at stepped
      obtain ⟨epoll, added, stepped⟩ := Option.bind_eq_some_iff.mp stepped
      obtain ⟨kqueue, -, stepped⟩ := Option.bind_eq_some_iff.mp stepped
      cases stepped
      have isOpen : k.fdOpen fd = true := by
        by_contra closed
        unfold aeEpollAdd epollCtl at added
        rw [if_pos (Bool.not_eq_true _ ▸ closed)] at added
        cases added
      refine ⟨isOpen, fun empty quiet => ?_⟩
      rw [inv.right.epollAdd isOpen] at added
      cases added
      have none : (el.events fd).mask = aeNone := by
        rw [(events_of_aeCreateFileEvent created).2, Function.update_self]
        exact AeMask.or_eq_none.mpr ⟨quiet, empty⟩
      have here := (right fd).1
      simp only [Function.update_self, none, if_true] at here
      cases here
  | delete fd mask =>
      intro inside registered
      rw [AeKernel.step_delete inside registered] at stepped
      obtain ⟨epoll, -, stepped⟩ := Option.bind_eq_some_iff.mp stepped
      obtain ⟨kqueue, deleted, -⟩ := Option.bind_eq_some_iff.mp stepped
      rw [aeKqueueDel_open (inv.isOpen fd registered), (inv.right fd).2] at deleted
      by_contra more
      rw [if_neg more] at deleted
      cases deleted

end Verben
