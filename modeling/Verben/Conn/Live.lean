import Verben.Conn.Model

/-!
# The live connections

`ConnProc.Wf` says that the heap, `clients`, `conn_vec` and the event table describe
the same connections. Every step keeps it (`ConnProc.step_cases`). A callback for one
connection leaves the others as they were, with the entries of their fds
(`Apart`).
-/

namespace Verben

/-- The connection at `cli` is found wherever the process looks for it. -/
structure ConnProc.Live (p : ConnProc) (cli : Nat) (c : ClientConn) : Prop where
  addr : cli ≠ 0
  magic : c.magic = connMagicDebug
  listed : cli ∈ p.clients
  vec : p.connVec c.fd = cli
  isOpen : p.fdOpen c.fd = true
  inside : c.fd < aeSetsize
  readable : (p.ael.events c.fd).mask.readable = true
  reader : (p.ael.events c.fd).rFileProc = some .readFromClient
  data : (p.ael.events c.fd).clientData = some cli

/-- The entry can call back for a connection. -/
def AeFileEvent.Serves (fe : AeFileEvent FileProc Nat) : Prop :=
  fe.mask.readable = true ∧ fe.rFileProc = some .readFromClient ∨ fe.mask.writable = true

theorem AeFileEvent.not_serves {fe : AeFileEvent FileProc Nat} (quiet : fe.mask = aeNone) :
    ¬ fe.Serves := by
  unfold AeFileEvent.Serves
  rw [quiet]
  simp [aeNone]

/-- The tables of the process agree. -/
structure ConnProc.Wf (p : ConnProc) : Prop where
  live : ∀ {cli c}, p.heap cli = some c → p.Live cli c
  listed : ∀ {cli}, cli ∈ p.clients → ∃ c, p.heap cli = some c
  nodup : p.clients.Nodup
  vec : ∀ {fd}, p.connVec fd ≠ 0 → ∃ c, p.heap (p.connVec fd) = some c ∧ c.fd = fd
  entry : ∀ {fd}, (p.ael.events fd).Serves →
    ∃ cli c, (p.ael.events fd).clientData = some cli ∧ p.heap cli = some c ∧ c.fd = fd
  writer : ∀ {fd}, (p.ael.events fd).mask.writable = true →
    (p.ael.events fd).wFileProc = some .writeToClient
  shut : ∀ {fd}, p.fdOpen fd = false → (p.ael.events fd).mask = aeNone

/-- Connections other than `cli` that are live now were live before, and the same. -/
def Apart (p p' : ConnProc) (cli : Nat) : Prop :=
  ∀ other c, other ≠ cli → p'.heap other = some c →
    p.heap other = some c ∧ p'.ael.events c.fd = p.ael.events c.fd

theorem Apart.refl (p : ConnProc) (cli : Nat) : Apart p p cli :=
  fun _ _ _ live => ⟨live, rfl⟩

theorem Apart.trans {p p' p'' : ConnProc} {cli : Nat} (first : Apart p p' cli)
    (second : Apart p' p'' cli) : Apart p p'' cli := by
  intro other c ne live
  obtain ⟨live', same'⟩ := second other c ne live
  obtain ⟨live, same⟩ := first other c ne live'
  exact ⟨live, same'.trans same⟩

section Primitives

variable {p : ConnProc} {cli : Nat} {c : ClientConn}

/-- A connection stays live while the tables have the same for it. -/
theorem ConnProc.Live.congr {p' : ConnProc} (l : p.Live cli c) (listed : cli ∈ p'.clients)
    (vec : p'.connVec c.fd = p.connVec c.fd) (isOpen : p'.fdOpen c.fd = p.fdOpen c.fd)
    (entry : p'.ael.events c.fd = p.ael.events c.fd) : p'.Live cli c where
  addr := l.addr
  magic := l.magic
  listed := listed
  vec := vec.trans l.vec
  isOpen := isOpen.trans l.isOpen
  inside := l.inside
  readable := entry ▸ l.readable
  reader := entry ▸ l.reader
  data := entry ▸ l.data

/-- Live connections have different fds. -/
theorem ConnProc.Wf.fd_ne (wf : p.Wf) (live : p.heap cli = some c) {other : Nat}
    {c' : ClientConn} (live' : p.heap other = some c') (ne : other ≠ cli) : c'.fd ≠ c.fd := by
  intro same
  exact ne ((wf.live live').vec.symm.trans (same ▸ (wf.live live).vec))

/-- The connection on an fd, by `conn_vec`. -/
def ConnProc.clientAt (p : ConnProc) (fd : Nat) : Option ClientConn := p.heap (p.connVec fd)

theorem ConnProc.Wf.clientAt_eq (wf : p.Wf) (live : p.heap cli = some c) :
    p.clientAt c.fd = some c := by
  unfold ConnProc.clientAt
  rw [(wf.live live).vec, live]

/-- File events of a live connection fire. -/
theorem ConnProc.Wf.step_readable (wf : p.Wf) (live : p.heap cli = some c) (env : ReadEnv) :
    p.step (.readable c.fd env) = readFromClient p cli env := by
  have l := wf.live live
  simp only [ConnProc.step, l.readable, l.reader, l.data, Option.bind_some, and_self, if_true]

/-! ## The fields of a connection -/

@[simp] theorem heap_setClient_self (p : ConnProc) (cli : Nat) (c : ClientConn) :
    (p.setClient cli c).heap cli = some c := Function.update_self ..

theorem ConnProc.Wf.setClient (wf : p.Wf) (live : p.heap cli = some c) {c' : ClientConn}
    (fd : c'.fd = c.fd) (magic : c'.magic = c.magic) : (p.setClient cli c').Wf := by
  have old := wf.live live
  have found : ∀ {other o}, p.heap other = some o →
      ∃ o', (p.setClient cli c').heap other = some o' ∧ o'.fd = o.fd := by
    intro other o there
    by_cases same : other = cli
    · subst same
      refine ⟨c', Function.update_self .., ?_⟩
      rw [fd, Option.some_inj.mp (live.symm.trans there)]
    · exact ⟨o, by rw [← there]; exact Function.update_of_ne same .., rfl⟩
  constructor
  case live =>
    intro other o there
    by_cases same : other = cli
    · subst same
      rw [heap_setClient_self] at there
      cases there
      exact ⟨old.addr, magic.trans old.magic, old.listed, by rw [fd]; exact old.vec,
        by rw [fd]; exact old.isOpen, by rw [fd]; exact old.inside,
        by rw [fd]; exact old.readable, by rw [fd]; exact old.reader, by rw [fd]; exact old.data⟩
    · have before : p.heap other = some o :=
        (Function.update_of_ne same ..).symm.trans there
      have l := wf.live before
      exact l.congr l.listed rfl rfl rfl
  case listed =>
    intro other mem
    obtain ⟨o, there⟩ := wf.listed mem
    obtain ⟨o', there', _⟩ := found there
    exact ⟨o', there'⟩
  case nodup => exact wf.nodup
  case vec =>
    intro fd' set
    obtain ⟨o, there, same⟩ := wf.vec set
    obtain ⟨o', there', same'⟩ := found there
    exact ⟨o', there', same'.trans same⟩
  case entry =>
    intro fd' serves
    obtain ⟨other, o, data, there, same⟩ := wf.entry serves
    obtain ⟨o', there', same'⟩ := found there
    exact ⟨other, o', data, there', same'.trans same⟩
  case writer => exact wf.writer
  case shut => exact wf.shut

theorem apart_setClient (p : ConnProc) (cli : Nat) (c : ClientConn) :
    Apart p (p.setClient cli c) cli :=
  fun _ _ ne live => ⟨(Function.update_of_ne ne ..).symm.trans live, rfl⟩

/-! ## Write events -/

/-- The process with another event table. -/
abbrev ConnProc.setAel (p : ConnProc) (ael : AeEventLoop FileProc Nat) : ConnProc :=
  { p with ael := ael }

/-- Changing the entry of one live connection, as long as it goes on reading. -/
theorem ConnProc.Wf.setEntry (wf : p.Wf) (live : p.heap cli = some c)
    {ael : AeEventLoop FileProc Nat}
    (others : ∀ fd, fd ≠ c.fd → ael.events fd = p.ael.events fd)
    (readable : (ael.events c.fd).mask.readable = true)
    (reader : (ael.events c.fd).rFileProc = some .readFromClient)
    (data : (ael.events c.fd).clientData = some cli)
    (writer : (ael.events c.fd).mask.writable = true →
      (ael.events c.fd).wFileProc = some .writeToClient) : (p.setAel ael).Wf := by
  constructor
  case live =>
    intro other o there
    have l := wf.live there
    by_cases same : other = cli
    · subst same
      rw [Option.some_inj.mp (there.symm.trans live)] at l ⊢
      exact ⟨l.addr, l.magic, l.listed, l.vec, l.isOpen, l.inside, readable, reader, data⟩
    · exact l.congr l.listed rfl rfl (others o.fd (wf.fd_ne live there same))
  case listed => exact wf.listed
  case nodup => exact wf.nodup
  case vec => exact wf.vec
  case entry =>
    intro fd serves
    by_cases same : fd = c.fd
    · subst same
      exact ⟨cli, c, data, live, rfl⟩
    · have entry := others fd same
      obtain ⟨other, o, data, there, fdEq⟩ := wf.entry (entry ▸ serves)
      exact ⟨other, o, entry ▸ data, there, fdEq⟩
  case writer =>
    intro fd set
    by_cases same : fd = c.fd
    · subst same
      exact writer set
    · have entry := others fd same
      exact entry ▸ wf.writer (entry ▸ set)
  case shut =>
    intro fd closed
    have ne : fd ≠ c.fd := by
      intro same
      subst same
      exact absurd (wf.live live).isOpen (by rw [show p.fdOpen c.fd = false from closed]; simp)
    exact others fd ne ▸ wf.shut closed

/-- Registering `write_to_client` for a live connection. -/
theorem ConnProc.Wf.register (wf : p.Wf) (live : p.heap cli = some c) {addOk : Bool}
    {ael : AeEventLoop FileProc Nat}
    (created : aeCreateFileEvent p.ael c.fd aeWritable .writeToClient cli addOk = some ael) :
    (p.setAel ael).Wf := by
  have l := wf.live live
  have entry : ael.events c.fd = (p.ael.events c.fd).register aeWritable .writeToClient cli := by
    rw [(events_of_aeCreateFileEvent created).2, Function.update_self]
  apply wf.setEntry live (fun fd ne => events_of_aeCreateFileEvent_ne created ne)
  · rw [entry]
    simp [AeFileEvent.register, AeMask.or, l.readable]
  · rw [entry]
    exact l.reader
  · rw [entry]
    rfl
  · intro _
    rw [entry]
    rfl

/-- Unregistering it. -/
theorem ConnProc.Wf.unregister (wf : p.Wf) (live : p.heap cli = some c) :
    (p.setAel (aeDeleteFileEvent p.ael c.fd aeWritable)).Wf := by
  have l := wf.live live
  have entry := mask_aeDeleteFileEvent p.ael l.inside aeWritable
  apply wf.setEntry live (fun fd ne => events_aeDeleteFileEvent_ne _ _ ne)
  · rw [entry]
    simp [AeMask.andNot, aeWritable, l.readable]
  · rw [entry]
    exact l.reader
  · rw [entry]
    exact l.data
  · rw [entry]
    simp [AeMask.andNot, aeWritable]

theorem apart_setAel (wf : p.Wf) (live : p.heap cli = some c) {ael : AeEventLoop FileProc Nat}
    (others : ∀ fd, fd ≠ c.fd → ael.events fd = p.ael.events fd) :
    Apart p (p.setAel ael) cli :=
  fun _ _ ne there => ⟨there, others _ (wf.fd_ne live there ne)⟩

/-! ## Closing -/

theorem events_drop_ne (p : ConnProc) (cli : Nat) {fd other : Nat} (ne : other ≠ fd) :
    (p.drop cli fd).ael.events other = p.ael.events other := by
  unfold ConnProc.drop
  simp only
  rw [events_aeDeleteFileEvent_ne _ _ ne, events_aeDeleteFileEvent_ne _ _ ne]

theorem mask_drop (p : ConnProc) (cli : Nat) {fd : Nat} (inside : fd < aeSetsize) :
    ((p.drop cli fd).ael.events fd).mask = aeNone := by
  unfold ConnProc.drop
  simp only
  rw [mask_aeDeleteFileEvent _ inside, mask_aeDeleteFileEvent _ inside]
  simp [AeMask.andNot, aeReadable, aeWritable, aeNone]

@[simp] theorem heap_drop_self (p : ConnProc) (cli fd : Nat) : (p.drop cli fd).heap cli = none :=
  Function.update_self ..

theorem heap_drop_ne (p : ConnProc) {cli other : Nat} (fd : Nat) (ne : other ≠ cli) :
    (p.drop cli fd).heap other = p.heap other := Function.update_of_ne ne ..

theorem apart_drop (wf : p.Wf) (live : p.heap cli = some c) : Apart p (p.drop cli c.fd) cli := by
  intro other o ne there
  rw [heap_drop_ne p c.fd ne] at there
  exact ⟨there, events_drop_ne p cli (wf.fd_ne live there ne)⟩

/-- Closing a live connection. -/
theorem ConnProc.Wf.drop (wf : p.Wf) (live : p.heap cli = some c) : (p.drop cli c.fd).Wf := by
  have l := wf.live live
  have quiet := mask_drop p cli l.inside
  constructor
  case live =>
    intro other o there
    have ne : other ≠ cli := by
      intro same
      subst same
      rw [heap_drop_self] at there
      cases there
    rw [heap_drop_ne p c.fd ne] at there
    have fdNe := wf.fd_ne live there ne
    apply (wf.live there).congr
    · exact (List.mem_erase_of_ne ne).mpr (wf.live there).listed
    · exact Function.update_of_ne fdNe ..
    · exact Function.update_of_ne fdNe ..
    · exact events_drop_ne p cli fdNe
  case listed =>
    intro other mem
    obtain ⟨ne, mem⟩ := wf.nodup.mem_erase_iff.mp mem
    rw [heap_drop_ne p c.fd ne]
    exact wf.listed mem
  case nodup => exact wf.nodup.erase cli
  case vec =>
    intro fd set
    have ne : fd ≠ c.fd := by
      intro same
      subst same
      exact set (Function.update_self ..)
    have same : (p.drop cli c.fd).connVec fd = p.connVec fd := Function.update_of_ne ne ..
    rw [same] at set ⊢
    obtain ⟨o, there, fdEq⟩ := wf.vec set
    have other : p.connVec fd ≠ cli := by
      intro eq
      rw [eq, live] at there
      cases there
      exact ne fdEq.symm
    exact ⟨o, (heap_drop_ne p c.fd other).trans there, fdEq⟩
  case entry =>
    intro fd serves
    have ne : fd ≠ c.fd := by
      intro same
      subst same
      exact AeFileEvent.not_serves quiet serves
    rw [events_drop_ne p cli ne] at serves ⊢
    obtain ⟨other, o, data, there, fdEq⟩ := wf.entry serves
    have otherNe : other ≠ cli := by
      intro same
      subst same
      rw [live] at there
      cases there
      exact ne fdEq.symm
    exact ⟨other, o, data, (heap_drop_ne p c.fd otherNe).trans there, fdEq⟩
  case writer =>
    intro fd set
    have ne : fd ≠ c.fd := by
      intro same
      subst same
      rw [quiet] at set
      cases set
    rw [events_drop_ne p cli ne] at set ⊢
    exact wf.writer set
  case shut =>
    intro fd closed
    by_cases same : fd = c.fd
    · rw [same]
      exact quiet
    · rw [events_drop_ne p cli same]
      exact wf.shut ((Function.update_of_ne same ..).symm.trans closed)

/-! ## Opening -/

/-- An fd that no connection uses. -/
structure ConnProc.Unused (p : ConnProc) (fd : Nat) : Prop where
  quiet : (p.ael.events fd).mask = aeNone
  noClient : ∀ {cli c}, p.heap cli = some c → c.fd ≠ fd

theorem ConnProc.Wf.unused (wf : p.Wf) {fd : Nat} (closed : p.fdOpen fd = false) :
    p.Unused fd := by
  refine ⟨wf.shut closed, ?_⟩
  intro cli c live same
  subst same
  exact absurd (wf.live live).isOpen (by rw [closed]; simp)

/-- Opening or closing an fd that no connection uses. -/
theorem ConnProc.Wf.setFdOpen (wf : p.Wf) {fd : Nat} (unused : p.Unused fd) (b : Bool) :
    { p with fdOpen := Function.update p.fdOpen fd b }.Wf := by
  refine ⟨?_, wf.listed, wf.nodup, wf.vec, wf.entry, wf.writer, ?_⟩
  · intro cli c live
    have l := wf.live live
    exact l.congr l.listed rfl (Function.update_of_ne (unused.noClient live) ..) rfl
  · intro other closed
    by_cases same : other = fd
    · rw [same]
      exact unused.quiet
    · exact wf.shut ((Function.update_of_ne same ..).symm.trans closed)

/-- Replacing the entry of an fd that no connection uses by one that is not set. -/
theorem ConnProc.Wf.setUnused (wf : p.Wf) {fd : Nat} (unused : p.Unused fd)
    {ael : AeEventLoop FileProc Nat}
    (others : ∀ other, other ≠ fd → ael.events other = p.ael.events other)
    (quiet : (ael.events fd).mask = aeNone) : (p.setAel ael).Wf := by
  refine ⟨?_, wf.listed, wf.nodup, wf.vec, ?_, ?_, ?_⟩
  · intro cli c live
    have l := wf.live live
    exact l.congr l.listed rfl rfl (others c.fd (unused.noClient live))
  · intro other serves
    have ne : other ≠ fd := by
      intro same
      subst same
      exact AeFileEvent.not_serves quiet serves
    rw [others other ne] at serves ⊢
    exact wf.entry serves
  · intro other set
    have ne : other ≠ fd := by
      intro same
      subst same
      rw [quiet] at set
      cases set
    rw [others other ne] at set ⊢
    exact wf.writer set
  · intro other closed
    by_cases same : other = fd
    · rw [same]
      exact quiet
    · rw [others other same]
      exact wf.shut closed

/-- A new connection on a fresh address and an fd that is open and unused. -/
theorem ConnProc.Wf.create (wf : p.Wf) {fd : Nat} (unused : p.Unused fd)
    (isOpen : p.fdOpen fd = true) (nonnull : cli ≠ 0) (fresh : p.heap cli = none)
    (fdEq : c.fd = fd) (magic : c.magic = connMagicDebug) {addOk : Bool}
    {ael : AeEventLoop FileProc Nat}
    (created : aeCreateFileEvent p.ael fd aeReadable .readFromClient cli addOk = some ael) :
    { p with
      ael := ael, heap := Function.update p.heap cli (some c), clients := p.clients ++ [cli],
      connVec := Function.update p.connVec fd cli }.Wf := by
  have inside := (events_of_aeCreateFileEvent created).1
  have entry : ael.events fd = (p.ael.events fd).register aeReadable .readFromClient cli := by
    rw [(events_of_aeCreateFileEvent created).2, Function.update_self]
  have others : ∀ other, other ≠ fd → ael.events other = p.ael.events other :=
    fun other ne => events_of_aeCreateFileEvent_ne created ne
  have kept : ∀ {other o}, p.heap other = some o →
      Function.update p.heap cli (some c) other = some o := by
    intro other o there
    have ne : other ≠ cli := by
      intro same
      subst same
      rw [fresh] at there
      cases there
    exact (Function.update_of_ne ne ..).trans there
  constructor
  case live =>
    intro other o there
    by_cases same : other = cli
    · subst same
      simp only [Function.update_self] at there
      cases there
      refine ⟨nonnull, magic, ?_, ?_, by rw [fdEq]; exact isOpen, by rw [fdEq]; exact inside,
        ?_, ?_, ?_⟩
      · exact List.mem_append_right _ (List.mem_singleton_self _)
      · rw [fdEq]
        exact Function.update_self ..
      · rw [fdEq, entry]
        simp [AeFileEvent.register, AeMask.or, aeReadable]
      · rw [fdEq, entry]
        rfl
      · rw [fdEq, entry]
        rfl
    · have before : p.heap other = some o := (Function.update_of_ne same ..).symm.trans there
      have fdNe := unused.noClient before
      apply (wf.live before).congr
      · exact List.mem_append_left _ (wf.live before).listed
      · exact Function.update_of_ne fdNe ..
      · rfl
      · exact others o.fd fdNe
  case listed =>
    intro other mem
    rcases List.mem_append.mp mem with mem | mem
    · obtain ⟨o, there⟩ := wf.listed mem
      exact ⟨o, kept there⟩
    · rw [List.mem_singleton.mp mem]
      exact ⟨c, Function.update_self ..⟩
  case nodup =>
    refine List.nodup_append.mpr ⟨wf.nodup, by simp, ?_⟩
    intro a mem b new same
    subst same
    rw [List.mem_singleton.mp new] at mem
    obtain ⟨o, there⟩ := wf.listed mem
    rw [fresh] at there
    cases there
  case vec =>
    intro other set
    by_cases same : other = fd
    · subst same
      exact ⟨c, by simp, fdEq⟩
    · have vec : Function.update p.connVec fd cli other = p.connVec other :=
        Function.update_of_ne same ..
      simp only [vec] at set ⊢
      obtain ⟨o, there, fdEq⟩ := wf.vec set
      exact ⟨o, kept there, fdEq⟩
  case entry =>
    intro other serves
    by_cases same : other = fd
    · subst same
      exact ⟨cli, c, by rw [entry]; rfl, Function.update_self .., fdEq⟩
    · rw [others other same] at serves ⊢
      obtain ⟨a, o, data, there, fdEq⟩ := wf.entry serves
      exact ⟨a, o, data, kept there, fdEq⟩
  case writer =>
    intro other set
    by_cases same : other = fd
    · subst same
      rw [entry] at set
      simp [AeFileEvent.register, AeMask.or, aeReadable, unused.quiet, aeNone] at set
    · rw [others other same] at set ⊢
      exact wf.writer set
  case shut =>
    intro other closed
    have ne : other ≠ fd := by
      intro same
      subst same
      exact absurd isOpen (by rw [show p.fdOpen other = false from closed]; simp)
    rw [others other ne]
    exact wf.shut closed

end Primitives

end Verben
