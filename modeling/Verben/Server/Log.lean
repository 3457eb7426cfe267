import Verben.Lib.Trace
import Verben.Server.Step

/-!
# What the log says

The log, projected to one kind of events, is what a queue took in or gave out; so
both queues are between two projections of it (`Queued`). A worker has at most one
request at a time, and pops the next one behind its push for the one before
(`Worked`). Both hold in every state of every run (`Server.logged_of_reach`).
-/

namespace Verben

open Trace Transition

variable {W : Type}

/-! ## Projections -/

@[simp] def LogEvent.framedReq : LogEvent W → Option Request
  | .framed r => some r
  | _ => none

@[simp] def LogEvent.poppedReq : LogEvent W → Option Request
  | .popped _ r => some r
  | _ => none

@[simp] def LogEvent.pushedReq : LogEvent W → Option Request
  | .pushed _ r => some r
  | _ => none

@[simp] def LogEvent.takenReq : LogEvent W → Option Request
  | .taken r => some r
  | _ => none

@[simp] def LogEvent.appendedReq : LogEvent W → Option Request
  | .appended _ r => some r
  | _ => none

/-- The request that a worker has. -/
def Phase.req (p : Phase) : Option Request := p.datagram.map Datagram.req

section Projections

variable {log : List (LogEvent W)} {r : Request} {w w' : W} {n : Nat}

theorem mem_framedReq (mem : .framed r ∈ log) : r ∈ log.filterMap LogEvent.framedReq :=
  List.mem_filterMap.mpr ⟨_, mem, rfl⟩

theorem mem_poppedReq (mem : .popped w r ∈ log) : r ∈ log.filterMap LogEvent.poppedReq :=
  List.mem_filterMap.mpr ⟨_, mem, rfl⟩

theorem mem_pushedReq : r ∈ log.filterMap LogEvent.pushedReq ↔ ∃ w, .pushed w r ∈ log := by
  constructor
  · intro mem
    obtain ⟨e, there, projected⟩ := List.mem_filterMap.mp mem
    cases e <;> cases projected
    exact ⟨_, there⟩
  · intro both
    rcases both with ⟨w, mem⟩
    exact List.mem_filterMap.mpr ⟨_, mem, rfl⟩

theorem mem_takenReq (mem : .taken r ∈ log) : r ∈ log.filterMap LogEvent.takenReq :=
  List.mem_filterMap.mpr ⟨_, mem, rfl⟩

theorem mem_appendedReq (mem : .appended n r ∈ log) : r ∈ log.filterMap LogEvent.appendedReq :=
  List.mem_filterMap.mpr ⟨_, mem, rfl⟩

end Projections

/-! ## The invariants -/

/-- The queues hold what came in and did not go out. Every request is framed once,
pushed at most once, and appended at most once. -/
structure Queued (log : List (LogEvent W)) (recv send : List Request) (next : Nat) : Prop where
  framed : log.filterMap LogEvent.framedReq = log.filterMap LogEvent.poppedReq ++ recv
  pushed : log.filterMap LogEvent.pushedReq = log.filterMap LogEvent.takenReq ++ send
  appended : (log.filterMap LogEvent.appendedReq).Sublist (log.filterMap LogEvent.takenReq)
  fresh : ∀ r ∈ log.filterMap LogEvent.framedReq, r.num < next
  framedNodup : (log.filterMap LogEvent.framedReq).Nodup
  pushedNodup : (log.filterMap LogEvent.pushedReq).Nodup

/-- Each worker works on one request after the other. -/
structure Worked (log : List (LogEvent W)) (worker : W → Worker) : Prop where
  order : ∀ {w r}, .pushed w r ∈ log → Precedes log (.popped w r) (.pushed w r)
  held : ∀ {w r}, (worker w).phase.req = some r → .popped w r ∈ log ∧ .pushed w r ∉ log
  done : ∀ {w r}, .popped w r ∈ log → .pushed w r ∈ log ∨ (worker w).phase.req = some r
  next : ∀ {w r r'}, Precedes log (.popped w r) (.popped w r') →
    Precedes log (.pushed w r) (.popped w r')

structure Server.Logged (s : Server W) : Prop where
  queued :
    Queued s.log (s.recvQueue.map Datagram.req) (s.sendQueue.map Datagram.req) s.nextReq
  worked : Worked s.log s.worker
  nodup : s.log.Nodup

/-! ## Queues -/

theorem nodup_concat_of_not_mem {α : Type} {l : List α} {x : α} (nodup : l.Nodup) (new : x ∉ l) :
    (l ++ [x]).Nodup := by
  rw [← List.concat_eq_append]
  exact nodup.concat new

section Queued

variable {log : List (LogEvent W)} {recv send : List Request} {next : Nat} {w w' : W}
  {r : Request}

theorem Queued.poppedNodup (queued : Queued log recv send next) :
    (log.filterMap LogEvent.poppedReq).Nodup :=
  (queued.framed ▸ queued.framedNodup).sublist (List.sublist_append_left _ _)

/-- A request is popped by one worker. -/
theorem Queued.popper_unique (queued : Queued log recv send next) (mem : .popped w r ∈ log)
    (mem' : .popped w' r ∈ log) : w = w' := by
  cases eq_of_filterMap_nodup queued.poppedNodup mem mem' rfl rfl
  rfl

/-- The first request in a queue did not leave it before. -/
theorem Queued.not_mem_popped (queued : Queued log (r :: recv) send next) :
    r ∉ log.filterMap LogEvent.poppedReq := by
  have nodup := queued.framedNodup
  rw [queued.framed] at nodup
  intro mem
  exact (List.nodup_append.mp nodup).2.2 _ mem _ List.mem_cons_self rfl

theorem Queued.not_mem_taken (queued : Queued log recv (r :: send) next) :
    r ∉ log.filterMap LogEvent.takenReq := by
  have nodup := queued.pushedNodup
  rw [queued.pushed] at nodup
  intro mem
  exact (List.nodup_append.mp nodup).2.2 _ mem _ List.mem_cons_self rfl

theorem Queued.not_mem_framed (queued : Queued log recv send next) (num : r.num = next) :
    r ∉ log.filterMap LogEvent.framedReq := by
  intro mem
  have := queued.fresh r mem
  omega

theorem Queued.snoc_framed (queued : Queued log recv send next) (num : r.num = next) :
    Queued (log ++ [.framed r]) (recv ++ [r]) send (next + 1) := by
  have nodup := nodup_concat_of_not_mem queued.framedNodup (queued.not_mem_framed num)
  refine ⟨?_, ?_, ?_, ?_, ?_, ?_⟩
  · simp [List.filterMap_cons, queued.framed]
  · simp [List.filterMap_cons, queued.pushed]
  · simpa [List.filterMap_cons] using queued.appended
  · intro r' mem
    rw [List.filterMap_append] at mem
    rcases List.mem_append.mp mem with mem | mem
    · exact Nat.lt_succ_of_lt (queued.fresh r' mem)
    · cases List.mem_singleton.mp mem
      rw [num]
      exact Nat.lt_succ_self _
  · simpa [List.filterMap_cons] using nodup
  · simpa [List.filterMap_cons] using queued.pushedNodup

theorem Queued.snoc_popped (queued : Queued log (r :: recv) send next) (w : W) :
    Queued (log ++ [.popped w r]) recv send next := by
  refine ⟨?_, ?_, ?_, ?_, ?_, ?_⟩
  · simp [List.filterMap_cons, queued.framed]
  · simp [List.filterMap_cons, queued.pushed]
  · simpa [List.filterMap_cons] using queued.appended
  · simpa [List.filterMap_cons] using queued.fresh
  · simpa [List.filterMap_cons] using queued.framedNodup
  · simpa [List.filterMap_cons] using queued.pushedNodup

theorem Queued.snoc_pushed (queued : Queued log recv send next) (w : W)
    (new : r ∉ log.filterMap LogEvent.pushedReq) :
    Queued (log ++ [.pushed w r]) recv (send ++ [r]) next := by
  have nodup := nodup_concat_of_not_mem queued.pushedNodup new
  refine ⟨?_, ?_, ?_, ?_, ?_, ?_⟩
  · simp [List.filterMap_cons, queued.framed]
  · simp [List.filterMap_cons, queued.pushed]
  · simpa [List.filterMap_cons] using queued.appended
  · simpa [List.filterMap_cons] using queued.fresh
  · simpa [List.filterMap_cons] using queued.framedNodup
  · simpa [List.filterMap_cons] using nodup

/-- A response is taken, and may be appended with that. -/
theorem Queued.snoc_taken (queued : Queued log recv (r :: send) next)
    {appends : List (LogEvent W)} (most : appends = [] ∨ ∃ n, appends = [.appended n r]) :
    Queued (log ++ .taken r :: appends) recv send next := by
  rcases most with rfl | ⟨n, rfl⟩
  · have kept := queued.appended.trans (List.sublist_append_left _ [r])
    refine ⟨?_, ?_, ?_, ?_, ?_, ?_⟩
    · simp [List.filterMap_cons, queued.framed]
    · simp [List.filterMap_cons, queued.pushed]
    · simpa [List.filterMap_cons] using kept
    · simpa [List.filterMap_cons] using queued.fresh
    · simpa [List.filterMap_cons] using queued.framedNodup
    · simpa [List.filterMap_cons] using queued.pushedNodup
  · have kept := queued.appended.append (List.Sublist.refl [r])
    refine ⟨?_, ?_, ?_, ?_, ?_, ?_⟩
    · simp [List.filterMap_cons, queued.framed]
    · simp [List.filterMap_cons, queued.pushed]
    · simpa [List.filterMap_cons] using kept
    · simpa [List.filterMap_cons] using queued.fresh
    · simpa [List.filterMap_cons] using queued.framedNodup
    · simpa [List.filterMap_cons] using queued.pushedNodup

end Queued

/-! ## Workers -/

section Worked

variable {log : List (LogEvent W)} {worker : W → Worker} {w : W} {r : Request}

/-- Events of others do not matter. -/
theorem Worked.append (worked : Worked log worker) {more : List (LogEvent W)}
    (other : ∀ e ∈ more, e.poppedReq = none ∧ e.pushedReq = none) :
    Worked (log ++ more) worker := by
  have popped : ∀ {w r}, .popped w r ∈ log ++ more → .popped w r ∈ log := by
    intro w r mem
    rcases List.mem_append.mp mem with mem | mem
    · exact mem
    · cases (other _ mem).1
  have pushed : ∀ {w r}, .pushed w r ∈ log ++ more → .pushed w r ∈ log := by
    intro w r mem
    rcases List.mem_append.mp mem with mem | mem
    · exact mem
    · cases (other _ mem).2
  have grown : log.Sublist (log ++ more) := List.sublist_append_left _ _
  constructor
  case order =>
    intro w r mem
    exact (worked.order (pushed mem)).mono grown
  case held =>
    intro w r held
    obtain ⟨there, waits⟩ := worked.held held
    exact ⟨List.mem_append_left _ there, fun mem => waits (pushed mem)⟩
  case done =>
    intro w r mem
    exact (worked.done (popped mem)).imp_left (List.mem_append_left _)
  case next =>
    intro w r r' order
    refine (worked.next ?_).mono grown
    obtain ⟨early, late, split, first, second⟩ := precedes_iff.mp order
    rcases List.append_eq_append_iff.mp split with ⟨between, rfl, rfl⟩ | ⟨between, rfl, rfl⟩
    · cases (other _ (List.mem_append_right _ second)).1
    · rcases List.mem_append.mp second with second | second
      · exact precedes_iff.mpr ⟨early, between, rfl, first, second⟩
      · cases (other _ second).1

variable [DecidableEq W]

/-- A worker that keeps its request, or still has none. -/
theorem Worked.setWorker (worked : Worked log worker) {x : Worker}
    (same : x.phase.req = (worker w).phase.req) : Worked log (Function.update worker w x) := by
  have kept : ∀ w', ((Function.update worker w x) w').phase.req = (worker w').phase.req := by
    intro w'
    by_cases at_w : w' = w
    · rw [at_w, Function.update_self, same]
    · rw [Function.update_of_ne at_w]
  constructor
  case order => exact worked.order
  case held =>
    intro w' r held
    exact worked.held ((kept w').symm.trans held)
  case done =>
    intro w' r mem
    rw [kept w']
    exact worked.done mem
  case next => exact worked.next

/-- A worker that has no request pops one. -/
theorem Worked.pop (worked : Worked log worker) (idle : (worker w).phase.req = none)
    (fresh : ∀ w', .popped w' r ∉ log) {x : Worker} (held : x.phase.req = some r) :
    Worked (log ++ [.popped w r]) (Function.update worker w x) := by
  have unpushed : ∀ w', .pushed w' r ∉ log := fun w' mem =>
    fresh w' (worked.order mem).mem.1
  have pushed : ∀ {w' r'}, .pushed w' r' ∈ log ++ [.popped w r] → .pushed w' r' ∈ log := by
    intro w' r' mem
    rcases List.mem_append.mp mem with mem | mem
    · exact mem
    · cases List.mem_singleton.mp mem
  have grown : log.Sublist (log ++ [.popped w r]) := List.sublist_append_left _ _
  constructor
  case order =>
    intro w' r' mem
    exact (worked.order (pushed mem)).mono grown
  case held =>
    intro w' r' held'
    by_cases at_w : w' = w
    · rw [at_w, Function.update_self, held] at held'
      cases held'
      exact ⟨by rw [at_w]; simp, fun mem => unpushed w' (pushed mem)⟩
    · rw [Function.update_of_ne at_w] at held'
      obtain ⟨there, waits⟩ := worked.held held'
      exact ⟨List.mem_append_left _ there, fun mem => waits (pushed mem)⟩
  case done =>
    intro w' r' mem
    rcases List.mem_append.mp mem with mem | mem
    · rcases worked.done mem with there | held'
      · exact .inl (List.mem_append_left _ there)
      · by_cases at_w : w' = w
        · rw [at_w, idle] at held'
          cases held'
        · rw [Function.update_of_ne at_w]
          exact .inr held'
    · cases List.mem_singleton.mp mem
      rw [Function.update_self]
      exact .inr held
  case next =>
    intro w' r₁ r₂ order
    rcases (precedes_concat log _).mp order with order | ⟨first, last⟩
    · exact (worked.next order).mono grown
    · cases last
      -- the worker has no request, so it has pushed the one it popped before
      rcases worked.done first with there | held'
      · exact (precedes_concat log _).mpr (.inr ⟨there, rfl⟩)
      · rw [idle] at held'
        cases held'

/-- A worker pushes the response to its request. -/
theorem Worked.push (worked : Worked log worker) (held : (worker w).phase.req = some r)
    {x : Worker} (free : x.phase.req = none) :
    Worked (log ++ [.pushed w r]) (Function.update worker w x) := by
  have popped : ∀ {w' r'}, .popped w' r' ∈ log ++ [.pushed w r] → .popped w' r' ∈ log := by
    intro w' r' mem
    rcases List.mem_append.mp mem with mem | mem
    · exact mem
    · cases List.mem_singleton.mp mem
  have grown : log.Sublist (log ++ [.pushed w r]) := List.sublist_append_left _ _
  constructor
  case order =>
    intro w' r' mem
    rcases List.mem_append.mp mem with mem | mem
    · exact (worked.order mem).mono grown
    · cases List.mem_singleton.mp mem
      exact (precedes_concat log _).mpr (.inr ⟨(worked.held held).1, rfl⟩)
  case held =>
    intro w' r' held'
    by_cases at_w : w' = w
    · rw [at_w, Function.update_self, free] at held'
      cases held'
    · rw [Function.update_of_ne at_w] at held'
      obtain ⟨there, waits⟩ := worked.held held'
      refine ⟨List.mem_append_left _ there, fun mem => ?_⟩
      rcases List.mem_append.mp mem with mem | mem
      · exact waits mem
      · cases List.mem_singleton.mp mem
        exact at_w rfl
  case done =>
    intro w' r' mem
    rcases worked.done (popped mem) with there | held'
    · exact .inl (List.mem_append_left _ there)
    · by_cases at_w : w' = w
      · rw [at_w, held] at held'
        cases held'
        rw [at_w]
        exact .inl (by simp)
      · rw [Function.update_of_ne at_w]
        exact .inr held'
  case next =>
    intro w' r₁ r₂ order
    rcases (precedes_concat log _).mp order with order | ⟨_, last⟩
    · exact (worked.next order).mono grown
    · cases last

end Worked

/-! ## Steps -/

/-- A request that a worker has was pushed by none. -/
theorem Server.Logged.not_pushed {s : Server W} {w : W} {r : Request} (logged : s.Logged)
    (held : (s.worker w).phase.req = some r) : r ∉ s.log.filterMap LogEvent.pushedReq := by
  rw [mem_pushedReq]
  intro both
  rcases both with ⟨w', pushed⟩
  obtain ⟨popped, waits⟩ := logged.worked.held held
  have popped' := (logged.worked.order pushed).mem.1
  cases logged.queued.popper_unique popped popped'
  exact waits pushed

section Steps

variable [DecidableEq W] {s s' : Server W}

/-- **Every step keeps the log in order.** -/
theorem Server.Moves.logged {act : ServerAct W} (moves : s.Moves act s') (logged : s.Logged) :
    s'.Logged := by
  rcases logged with ⟨queued, worked, nodup⟩
  cases moves with
  | quiet loop stepped plain => exact ⟨queued, worked, nodup⟩
  | opened loop stepped addr absent plain => exact ⟨queued, worked, nodup⟩
  | @framed env c conn said msg loop stepped live fd plain =>
      let r : Request := ⟨s.serial msg.cli, s.nextReq⟩
      have new := queued.not_mem_framed (r := r) rfl
      refine ⟨?_, worked.append ?_, nodup_concat_of_not_mem nodup fun mem =>
        new (mem_framedReq mem)⟩
      · simp only [List.map_append, List.map_cons, List.map_nil]
        exact queued.snoc_framed (r := r) rfl
      · intro e mem
        cases List.mem_singleton.mp mem
        exact ⟨rfl, rfl⟩
  | wake loop read => exact ⟨queued, worked, nodup⟩
  | finish empty => exact ⟨queued, worked, nodup⟩
  | discard draining queue stepped =>
      rw [queue, List.map_cons] at queued
      have new := queued.not_mem_taken
      refine ⟨queued.snoc_taken (.inl rfl), worked.append ?_, nodup_concat_of_not_mem nodup
        fun mem => new (mem_takenReq mem)⟩
      intro e mem
      cases List.mem_singleton.mp mem
      exact ⟨rfl, rfl⟩
  | @append addOk m rest conn events c draining queue stepped live fd =>
      rw [queue, List.map_cons] at queued
      have new := queued.not_mem_taken
      have taken := nodup_concat_of_not_mem nodup fun mem => new (mem_takenReq mem)
      refine ⟨queued.snoc_taken (.inr ⟨_, rfl⟩), worked.append ?_, ?_⟩
      · intro e mem
        rcases List.mem_cons.mp mem with rfl | mem
        · exact ⟨rfl, rfl⟩
        · cases List.mem_singleton.mp mem
          exact ⟨rfl, rfl⟩
      · rw [List.append_cons]
        refine nodup_concat_of_not_mem taken fun mem => ?_
        rcases List.mem_append.mp mem with mem | mem
        · exact new (queued.appended.subset (mem_appendedReq mem))
        · cases List.mem_singleton.mp mem
  | @pop w m rest idle queue =>
      rw [queue, List.map_cons] at queued
      have new := queued.not_mem_popped
      refine ⟨queued.snoc_popped w, worked.pop ?_ ?_ rfl, nodup_concat_of_not_mem nodup
        fun mem => new (mem_poppedReq mem)⟩
      · rw [idle]
        rfl
      · exact fun w' mem => new (mem_poppedReq mem)
  | process holding replied =>
      refine ⟨queued, worked.setWorker ?_, nodup⟩
      rw [holding]
      rfl
  | @push w m replying =>
      have held : (s.worker w).phase.req = some m.req := by
        rw [replying]
        rfl
      have new := Server.Logged.not_pushed ⟨queued, worked, nodup⟩ held
      refine ⟨?_, worked.push held rfl, nodup_concat_of_not_mem nodup fun mem =>
        new (mem_pushedReq.mpr ⟨w, mem⟩)⟩
      simp only [Server.setWorker, List.map_append, List.map_cons, List.map_nil]
      exact queued.snoc_pushed w new
  | notify notifying =>
      refine ⟨queued, worked.setWorker ?_, nodup⟩
      rw [notifying]
      rfl

/-- The log is in order in every state that a run reaches. -/
theorem Server.logged_of_reach {boot : ServerBoot W} {ok : Server W → ServerAct W → Prop}
    (reach : Reach Server.step ok (Server.init boot) s) : s.Logged := by
  refine Server.holds_of_reach reach ?_ fun _ logged _ moves => moves.logged logged
  refine ⟨⟨rfl, rfl, List.Sublist.refl _, ?_, List.nodup_nil, List.nodup_nil⟩, ?_, List.nodup_nil⟩
  · intro r mem
    cases mem
  · refine ⟨fun mem => ?_, fun held => ?_, fun mem => ?_, fun order => ?_⟩
    · cases mem
    · cases held
    · cases mem
    · cases order.mem.1

end Steps

end Verben
