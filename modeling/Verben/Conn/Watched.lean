import Verben.Conn.Kernel
import Verben.Conn.Tables

/-!
# The kernel watches what the process has registered

Over every run of the connection process no call of `epoll_ctl` or `kevent` fails but for want of
room, and the kernel watches in every state what the event loop's table has: a connection is
closed only when both its events are deleted, and no event is deleted that is not there
(`conn_kernel_follows`).
-/

namespace Verben

open Transition

variable {p p' p'' : ConnProc} {cli fd : Nat} {c : ClientConn} {calls calls' : List ConnCall}
  {events : List ConnEvent}

/-- The event loop of the process, and the kernel that follows it. -/
structure ConnProc.Served (p : ConnProc) (k : AeKernel FileProc Nat) : Prop where
  el : k.el = p.ael
  fdOpen : k.fdOpen = p.fdOpen
  inv : k.Inv

/-- The calls lead from the event loop of one state to that of the other, and none fails. -/
def Traced (p p' : ConnProc) (calls : List ConnCall) : Prop :=
  ∀ k, p.Served k → ∃ k', run AeKernel.step k calls = some k' ∧ p'.Served k'

theorem Traced.nil (el : p'.ael = p.ael) (fdOpen : p'.fdOpen = p.fdOpen) : Traced p p' [] :=
  fun k served => ⟨k, rfl, served.el.trans el.symm, served.fdOpen.trans fdOpen.symm, served.inv⟩

/-- The event loop and the descriptors are all that matters. -/
theorem Traced.of_same (traced : Traced p' p'' calls) (el : p'.ael = p.ael)
    (fdOpen : p'.fdOpen = p.fdOpen) : Traced p p'' calls := fun k served =>
  traced k ⟨served.el.trans el.symm, served.fdOpen.trans fdOpen.symm, served.inv⟩

theorem Traced.append (first : Traced p p' calls) (second : Traced p' p'' calls') :
    Traced p p'' (calls ++ calls') := by
  intro k served
  obtain ⟨k', ran, served'⟩ := first k served
  obtain ⟨k'', ran', served''⟩ := second k' served'
  refine ⟨k'', ?_, served''⟩
  rw [run_append, ran]
  exact ran'

/-- One call. -/
theorem Traced.one {call : ConnCall}
    (tidy : ∀ k : AeKernel FileProc Nat, k.el = p.ael → k.fdOpen = p.fdOpen → k.Tidy call)
    (moves : ∀ k k' : AeKernel FileProc Nat, k.el = p.ael → k.fdOpen = p.fdOpen →
      k.step call = some k' → k'.el = p'.ael ∧ k'.fdOpen = p'.fdOpen) : Traced p p' [call] := by
  intro k served
  obtain ⟨k', stepped, inv⟩ := served.inv.step (tidy k served.el served.fdOpen)
  obtain ⟨el, fdOpen⟩ := moves k k' served.el served.fdOpen stepped
  exact ⟨k', run_cons stepped rfl, el, fdOpen, inv⟩

theorem Traced.delete {mask : AeMask}
    (there : fd < aeSetsize → (p.ael.events fd).mask ≠ aeNone →
      (p.ael.events fd).mask.or mask = (p.ael.events fd).mask)
    (el : p'.ael = aeDeleteFileEvent p.ael fd mask) (fdOpen : p'.fdOpen = p.fdOpen) :
    Traced p p' [.delete fd mask] := by
  refine Traced.one (fun k same _ => by rw [AeKernel.Tidy, same]; exact there) ?_
  intro k k' same same' stepped
  obtain ⟨el', fdOpen'⟩ := AeKernel.el_of_delete stepped
  exact ⟨by rw [el', same, el], by rw [fdOpen', same', fdOpen]⟩

theorem Traced.closed (quiet : (p.ael.events fd).mask = aeNone) (el : p'.ael = p.ael)
    (fdOpen : p'.fdOpen = Function.update p.fdOpen fd false) : Traced p p' [.closed fd] := by
  refine Traced.one (fun k same _ => by rw [AeKernel.Tidy, same]; exact quiet) ?_
  intro k k' same same' stepped
  cases stepped
  exact ⟨same.trans el.symm, by rw [fdOpen, ← same']⟩

theorem Traced.create {mask : AeMask} {proc : FileProc} {room : Bool} (isOpen : p.fdOpen fd = true)
    (some : mask ≠ aeNone)
    (el : p'.ael = (aeCreateFileEvent p.ael fd mask proc cli room).getD p.ael)
    (fdOpen : p'.fdOpen = p.fdOpen) : Traced p p' [.create fd mask proc cli room] := by
  refine Traced.one ?_ ?_
  · intro k _ same' _ _
    rw [same']
    exact ⟨isOpen, fun none => absurd none some⟩
  · intro k k' same same' stepped
    obtain ⟨el', fdOpen'⟩ := AeKernel.el_of_create stepped
    exact ⟨by rw [el', same, el], by rw [fdOpen', same', fdOpen]⟩

/-! ## The callbacks -/

/-- `close_client`. -/
theorem traced_drop (live : p.Live cli c) : Traced p (p.drop cli c.fd) (closeCalls c.fd) := by
  have inside := live.inside
  have first : Traced p (p.setAel (aeDeleteFileEvent p.ael c.fd aeReadable))
      [.delete c.fd aeReadable] :=
    Traced.delete (fun _ _ => AeMask.or_readable live.readable) rfl rfl
  have mask := congrArg AeFileEvent.mask (mask_aeDeleteFileEvent p.ael inside aeReadable)
  have second : Traced (p.setAel (aeDeleteFileEvent p.ael c.fd aeReadable))
      (p.setAel (aeDeleteFileEvent (aeDeleteFileEvent p.ael c.fd aeReadable) c.fd aeWritable))
      [.delete c.fd aeWritable] := by
    refine Traced.delete (fun _ left => AeMask.or_writable ?_) rfl rfl
    change ((aeDeleteFileEvent p.ael c.fd aeReadable).events c.fd).mask ≠ aeNone at left
    change ((aeDeleteFileEvent p.ael c.fd aeReadable).events c.fd).mask.writable = true
    rw [mask] at left ⊢
    exact AeMask.writable_of_left left
  have third : Traced
      (p.setAel (aeDeleteFileEvent (aeDeleteFileEvent p.ael c.fd aeReadable) c.fd aeWritable))
      (p.drop cli c.fd) [.closed c.fd] := by
    refine Traced.closed ?_ rfl rfl
    change ((aeDeleteFileEvent (aeDeleteFileEvent p.ael c.fd aeReadable) c.fd aeWritable).events
      c.fd).mask = aeNone
    rw [mask_aeDeleteFileEvent _ inside, mask]
    exact AeMask.andNot_andNot _
  exact first.append (second.append third)

theorem traced_closeClient (wf : p.Wf) (live : p.heap cli = some c)
    (closed : closeClient p cli = some (p', events)) : Traced p p' (closeCalls c.fd) := by
  rw [closeClient_of_live wf live] at closed
  cases closed
  exact traced_drop (wf.live live)

theorem traced_dispatchFrame (wf : p.Wf) (live : p.heap cli = some c) {env : ReadEnv}
    (dispatched : dispatchFrame p cli c env = some (p', events)) :
    Traced p p' (dispatchCalls c env) := by
  obtain ⟨verdict, judged, rest⟩ := Option.bind_eq_some_iff.mp dispatched
  unfold dispatchCalls
  rw [judged]
  cases verdict with
  | invalid => exact traced_closeClient wf live rest
  | wait =>
      cases rest
      exact .nil rfl rfl
  | frame data =>
      simp only at rest ⊢
      split at rest
      · next allocated =>
          split at rest
          · next pushed =>
              obtain ⟨c', _, same⟩ := Option.map_eq_some_iff.mp rest
              cases same
              rw [if_pos ⟨allocated, pushed⟩]
              exact .nil rfl rfl
          · next full =>
              rw [if_neg fun both => full both.2]
              exact (traced_closeClient wf.nextIdentifier live rest).of_same rfl rfl
      · next failed =>
          rw [if_neg fun both => failed both.1]
          exact traced_closeClient wf live rest

theorem traced_readFromClient (wf : p.Wf) {env : ReadEnv}
    (read : readFromClient p cli env = some (p', events)) : Traced p p' (readCalls p cli env) := by
  obtain ⟨c, live, rest⟩ := Option.bind_eq_some_iff.mp read
  unfold readCalls
  rw [live]
  have closes : ∀ events, closeClient (p.setClient cli (c.touch p.unixClock)) cli =
      some (p', events) → Traced p p' (closeCalls c.fd) := by
    intro events closed
    have wf' : (p.setClient cli (c.touch p.unixClock)).Wf := wf.setClient live rfl rfl
    exact (traced_closeClient wf' (heap_setClient_self ..) closed).of_same rfl rfl
  cases result : env.result with
  | again =>
      rw [result] at rest
      cases rest
      exact .nil rfl rfl
  | error =>
      rw [result] at rest
      exact closes _ rest
  | data bytes =>
      rw [result] at rest
      cases bytes with
      | nil => exact closes _ rest
      | cons b bytes =>
          simp only at rest ⊢
          split at rest
          · cases rest
          · obtain ⟨c', received, rest⟩ := Option.bind_eq_some_iff.mp rest
            obtain ⟨tail, dispatched, rfl⟩ := ConnResult.of_after rest
            obtain ⟨fd, magic⟩ := receive_fd received
            have wf' : (p.setClient cli c').Wf := wf.setClient live fd magic
            have traced := traced_dispatchFrame wf' (heap_setClient_self ..) dispatched
            rw [received]
            exact traced.of_same rfl rfl

theorem traced_finishWrite (wf : p.Wf) (live : p.heap cli = some c) {n : Nat}
    (busy : (p.ael.events c.fd).mask.writable = true)
    (finished : finishWrite p cli c n = some (p', events)) : Traced p p' (finishCalls c n) := by
  unfold finishWrite at finished
  unfold finishCalls
  split at finished
  · next all =>
      rw [if_pos all]
      obtain ⟨sendbuf, _, rest⟩ := Option.bind_eq_some_iff.mp finished
      have unset : Traced p (p.setAel (aeDeleteFileEvent p.ael c.fd aeWritable))
          [.delete c.fd aeWritable] :=
        Traced.delete (fun _ _ => AeMask.or_writable busy) rfl rfl
      simp only at rest
      split at rest
      · next asked =>
          rw [if_pos asked]
          have wf' : ((p.setAel (aeDeleteFileEvent p.ael c.fd aeWritable)).setClient cli
              { c with sendbuf := sendbuf }).Wf := (wf.unregister live).setClient live rfl rfl
          have closed := traced_closeClient wf' (heap_setClient_self ..) rest
          exact unset.append (closed.of_same rfl rfl)
      · next stays =>
          rw [if_neg stays]
          cases rest
          exact unset.append (.nil rfl rfl)
  · next part =>
      rw [if_neg part]
      obtain ⟨sendbuf, _, same⟩ := Option.map_eq_some_iff.mp finished
      cases same
      exact .nil rfl rfl

theorem traced_writeToClient (wf : p.Wf) {result : WriteResult}
    (busy : ∀ c, p.heap cli = some c → (p.ael.events c.fd).mask.writable = true)
    (written : writeToClient p cli result = some (p', events)) :
    Traced p p' (writeCalls p cli result) := by
  obtain ⟨c, live, rest⟩ := Option.bind_eq_some_iff.mp written
  unfold writeCalls
  rw [live]
  have wf' : (p.setClient cli (c.touch p.unixClock)).Wf := wf.setClient live rfl rfl
  have finishes : ∀ n events, finishWrite (p.setClient cli (c.touch p.unixClock)) cli
      (c.touch p.unixClock) n = some (p', events) → Traced p p' (finishCalls c n) := by
    intro n events finished
    have traced := traced_finishWrite wf' (heap_setClient_self ..) (busy c live) finished
    exact traced.of_same rfl rfl
  cases result with
  | error =>
      have closed := traced_closeClient wf' (heap_setClient_self ..) rest
      exact closed.of_same rfl rfl
  | again => exact finishes _ _ rest
  | wrote n =>
      simp only at rest
      split at rest
      · obtain ⟨bytes, _, rest⟩ := Option.bind_eq_some_iff.mp rest
        obtain ⟨tail, finished, rfl⟩ := ConnResult.of_after rest
        exact finishes _ _ finished
      · cases rest

theorem traced_appendSendbuf (wf : p.Wf) (live : p.heap cli = some c) {data : List UInt8}
    {addOk : Bool} (appended : appendSendbuf p cli data addOk = some (p', events)) :
    Traced p p' (appendCalls cli p.ael c.fd addOk) := by
  unfold appendSendbuf at appended
  rw [live, Option.bind_some] at appended
  obtain ⟨sendbuf, _, rest⟩ := Option.bind_eq_some_iff.mp appended
  obtain ⟨tail, registered, rfl⟩ := ConnResult.of_after rest
  have isOpen := (wf.live live).isOpen
  have wf' : (p.setClient cli { c with sendbuf := sendbuf }).Wf := wf.setClient live rfl rfl
  unfold appendCalls
  simp only [ConnProc.setClient] at registered
  cases created : aeCreateFileEvent p.ael c.fd aeWritable .writeToClient cli addOk with
  | none =>
      rw [created] at registered
      have full : Traced p p [.create c.fd aeWritable .writeToClient cli addOk] :=
        Traced.create isOpen (by decide) (by rw [created]; rfl) rfl
      have closed := traced_closeClient wf' (heap_setClient_self ..) registered
      exact full.append (closed.of_same rfl rfl)
  | some ael =>
      rw [created] at registered
      cases registered
      exact Traced.create isOpen (by decide) (by rw [created]; rfl) rfl

/-- `create_client`. -/
theorem traced_createClient (unused : p.Unused fd) (isOpen : p.fdOpen fd = true) {ip : String}
    {port : Int} {env : CreateEnv} {created : Option Nat}
    (made : createClient p fd ip port env = (created, p')) :
    Traced p p' (createCalls p fd env) := by
  unfold createClient at made
  unfold createCalls
  cases addr : env.addr with
  | none =>
      rw [addr] at made
      cases made
      exact .nil rfl rfl
  | some cli =>
      rw [addr] at made
      simp only at made ⊢
      cases registered : aeCreateFileEvent p.ael fd aeReadable .readFromClient cli env.addOk with
      | none =>
          rw [registered] at made
          cases made
          have full : Traced p p [.create fd aeReadable .readFromClient cli env.addOk] :=
            Traced.create isOpen (by decide) (by rw [registered]; rfl) rfl
          exact full.append (.closed unused.quiet rfl rfl)
      | some ael =>
          rw [registered] at made
          have added : Traced p (p.setAel ael)
              [.create fd aeReadable .readFromClient cli env.addOk] :=
            Traced.create isOpen (by decide) (by rw [registered]; rfl) rfl
          simp only at made ⊢
          split at made
          · next noded =>
              cases made
              rw [if_pos noded]
              exact added.append (.nil rfl rfl)
          · next failed =>
              cases made
              rw [if_neg failed]
              obtain ⟨inside, table⟩ := events_of_aeCreateFileEvent registered
              have mask : (ael.events fd).mask = aeReadable := by
                rw [table, Function.update_self, AeFileEvent.register, unused.quiet]
                rfl
              have deleted : Traced (p.setAel ael) (p.setAel (aeDeleteFileEvent ael fd aeReadable))
                  [.delete fd aeReadable] := by
                refine Traced.delete (fun _ _ => ?_) rfl rfl
                change (ael.events fd).mask.or aeReadable = (ael.events fd).mask
                rw [mask]
                rfl
              refine added.append (deleted.append (.closed ?_ rfl rfl))
              change ((aeDeleteFileEvent ael fd aeReadable).events fd).mask = aeNone
              rw [mask_aeDeleteFileEvent ael inside, mask]
              rfl

theorem traced_openAnswered (wf : p.Wf) (live : p.heap cli = some c) {answer : OpenAnswer}
    {writeOk : Bool} (opened : openAnswered p cli answer writeOk = some (p', events)) :
    Traced p p' (openCalls cli p.ael c.fd answer writeOk) := by
  unfold openAnswered at opened
  unfold openCalls
  split at opened
  · next refused =>
      rw [if_pos refused]
      exact traced_closeClient wf live opened
  · next kept =>
      rw [if_neg kept]
      rw [live, Option.bind_some] at opened
      obtain ⟨tail, rest, rfl⟩ := ConnResult.of_after opened
      have wf' : (p.setCloseConn cli c (answer.ret = verbenConnClose)).Wf :=
        wf.setClient live rfl rfl
      cases result : answer.retbuf with
      | none =>
          rw [result] at rest
          cases rest
          exact .nil rfl rfl
      | some data =>
          rw [result] at rest
          exact (traced_appendSendbuf wf' (heap_setClient_self ..) rest).of_same rfl rfl

theorem traced_acceptCommonHandler (wf : p.Wf) (unused : p.Unused fd) (isOpen : p.fdOpen fd = true)
    {ip : String} {port : Int} {env : AcceptEnv} (fresh : p.FreshAddr env.addr)
    (accepted : acceptCommonHandler p fd ip port env = some (p', events)) :
    Traced p p' (acceptCalls p fd ip port env) := by
  unfold acceptCommonHandler at accepted
  unfold acceptCalls
  rcases createClient_cases wf ip port unused isOpen fresh with
    ⟨q, created, _, qUnused, _⟩ | ⟨cli, q, created, _, _, callback, live⟩
  · have made := traced_createClient unused isOpen created
    rw [created] at accepted ⊢
    cases accepted
    exact made.append (.closed qUnused.quiet rfl rfl)
  · have made := traced_createClient unused isOpen created
    rw [created] at accepted ⊢
    obtain ⟨tail, rest, rfl⟩ := ConnResult.of_after accepted
    refine made.append ?_
    simp only at rest ⊢
    split at rest
    · next full =>
        rw [if_pos full]
        exact traced_closeClient callback.wf live rest
    · next within =>
        rw [if_neg within]
        cases result : env.handleOpen with
        | none =>
            rw [result] at rest
            cases rest
            exact .nil rfl rfl
        | some answer =>
            rw [result] at rest
            exact traced_openAnswered callback.wf live rest

theorem traced_notifierMessage (wf : p.Wf) {msg : ShmMsg} {addOk : Bool}
    (handled : notifierMessage p msg addOk = some (p', events)) :
    Traced p p' (messageCalls p msg addOk) := by
  unfold notifierMessage at handled
  unfold messageCalls
  split at handled
  · cases handled
  · split at handled
    · next other =>
        cases handled
        rw [if_pos (.inl other)]
        exact .nil rfl rfl
    · next same =>
        split at handled
        · next other =>
            cases handled
            rw [if_pos (.inr other)]
            exact .nil rfl rfl
        · next same' =>
            rw [if_neg (not_or.mpr ⟨same, same'⟩)]
            obtain ⟨c, live, rest⟩ := Option.bind_eq_some_iff.mp handled
            rw [live]
            split at rest
            · cases rest
            · obtain ⟨closeConn, _, rest⟩ := Option.bind_eq_some_iff.mp rest
              obtain ⟨tail, appended, rfl⟩ := ConnResult.of_after rest
              have wf' : (p.setCloseConn msg.cli c closeConn).Wf := wf.setClient live rfl rfl
              exact (traced_appendSendbuf wf' (heap_setClient_self ..) appended).of_same rfl rfl

theorem traced_cronLoop {nodes : List Nat} (wf : p.Wf)
    (looped : cronLoop p nodes = some (p', events)) : Traced p p' (cronCalls p nodes) := by
  induction nodes generalizing p events with
  | nil =>
      cases looped
      exact .nil rfl rfl
  | cons node rest ih =>
      obtain ⟨c, live, body⟩ := Option.bind_eq_some_iff.mp looped
      unfold cronCalls
      rw [live]
      simp only at body ⊢
      split at body
      · next idle =>
          rw [if_pos idle, closeClient_of_live wf live]
          rw [closeClient_of_live wf live, Option.bind_some] at body
          obtain ⟨tail, others, rfl⟩ := ConnResult.of_after body
          exact (traced_drop (wf.live live)).append (ih (wf.drop live) others)
      · next used =>
          rw [if_neg used]
          exact ih wf body

/-! ## The process -/

theorem ConnProc.Wf.traced {act : ConnAct} (wf : p.Wf) (stepped : p.step act = some (p', events)) :
    Traced p p' (p.calls act) := by
  cases act with
  | accept fd ip port env =>
      simp only [ConnProc.step] at stepped
      split at stepped
      · next allowed =>
          have unused := wf.unused allowed.1
          have opened : Traced p { p with fdOpen := Function.update p.fdOpen fd true }
              [.opened fd] := by
            refine Traced.one (fun _ _ _ => trivial) ?_
            intro k k' same same' stepped
            cases stepped
            exact ⟨same, by rw [← same']⟩
          exact opened.append (traced_acceptCommonHandler (wf.setFdOpen unused true)
            ⟨unused.quiet, unused.noClient⟩ (Function.update_self ..) allowed.2 stepped)
      · cases stepped
  | readable fd env =>
      simp only [ConnProc.step] at stepped
      split at stepped
      · obtain ⟨cli, data, read⟩ := Option.bind_eq_some_iff.mp stepped
        rw [ConnProc.calls, data]
        exact traced_readFromClient wf read
      · cases stepped
  | writable fd result =>
      simp only [ConnProc.step] at stepped
      split at stepped
      · next fired =>
          obtain ⟨cli, data, written⟩ := Option.bind_eq_some_iff.mp stepped
          rw [ConnProc.calls, data]
          refine traced_writeToClient wf ?_ written
          intro c live
          obtain ⟨cli', c', data', live', rfl⟩ := wf.entry (.inr fired.1)
          cases data.symm.trans data'
          cases live.symm.trans live'
          exact fired.1
      · cases stepped
  | message msg addOk => exact traced_notifierMessage wf stepped
  | cron now => exact (traced_cronLoop (wf.setClock now) stepped).of_same rfl rfl

theorem ConnProc.served_init (boot : ConnBoot) :
    (ConnProc.init boot).Served (ConnKernel.init boot).kernel where
  el := rfl
  fdOpen := rfl
  inv := by
    refine ⟨fun fd => ⟨rfl, rfl⟩, fun fd registered => ?_⟩
    by_contra closed
    exact registered ((ConnProc.wf_init boot).shut (Bool.eq_false_iff.mpr closed))

/-- Every run of the process is one with the kernel: no call of `epoll_ctl` or `kevent` fails
but for room, and in the end the kernel watches what is registered. -/
theorem conn_kernel_follows (boot : ConnBoot) {acts : List ConnAct} {p : ConnProc}
    (ran : run ConnProc.moved (.init boot) acts = some p) :
    ∃ kernel, run ConnKernel.step (.init boot) acts = some ⟨p, kernel⟩ ∧ kernel.el = p.ael ∧
      kernel.fdOpen = p.fdOpen ∧ kernel.Right := by
  have wf := ConnProc.wf_init boot
  have served := ConnProc.served_init boot
  suffices all : ∀ (acts : List ConnAct) (q : ConnProc) (k : AeKernel FileProc Nat), q.Wf →
      q.Served k → run ConnProc.moved q acts = some p →
        ∃ kernel, run ConnKernel.step ⟨q, k⟩ acts = some ⟨p, kernel⟩ ∧ p.Served kernel by
    obtain ⟨kernel, ran, served⟩ := all acts _ _ wf served ran
    exact ⟨kernel, ran, served.el, served.fdOpen, served.inv.right⟩
  intro acts
  induction acts with
  | nil =>
      intro q k _ served ran
      cases ran
      exact ⟨k, rfl, served⟩
  | cons act acts ih =>
      intro q k wf served ran
      obtain ⟨q', moved, rest⟩ := Option.bind_eq_some_iff.mp ran
      obtain ⟨⟨q', events⟩, stepped, rfl⟩ := Option.map_eq_some_iff.mp moved
      obtain ⟨k', called, served'⟩ := wf.traced stepped k served
      obtain ⟨kernel, ran', served''⟩ :=
        ih q' k' (ConnProc.step_cases wf stepped).1 served' rest
      refine ⟨kernel, run_cons ?_ ran', served''⟩
      unfold ConnKernel.step
      rw [stepped, Option.bind_some, called]
      rfl

/-- A connection that is accepted and closed. -/
theorem conn_kernel_follows_once :
    ∃ p kernel, run ConnKernel.step (.init defaultBoot)
        [firstAccept, .readable 7 ⟨.data [], fun _ => 0, true, true⟩] = some ⟨p, kernel⟩ ∧
      kernel.Right := by
  have ends : (run ConnProc.moved (.init defaultBoot)
      [firstAccept, .readable 7 ⟨.data [], fun _ => 0, true, true⟩]).isSome = true := by
    decide +kernel
  obtain ⟨p, ran⟩ := Option.isSome_iff_exists.mp ends
  obtain ⟨kernel, ran', -, -, right⟩ := conn_kernel_follows defaultBoot ran
  exact ⟨p, kernel, ran', right⟩

end Verben
