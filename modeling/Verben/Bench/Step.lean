import Verben.Bench.Clients

/-!
# What a callback of the benchmark does

Each callback keeps what `Bench.Wf` says and ends in one of a few ways (`BenchFate`), which are
stated by the counters before and after, and by what becomes of a sum over all clients.
-/

namespace Verben

open CInt

/-- The counters. -/
structure Tally : Type where
  num : Int
  live : Int
  requests : Int
  issued : Int
  finished : Int
  keepAlive : Bool
  quit : Bool

def Bench.tally (b : Bench) : Tally where
  num := b.numClients
  live := b.liveClients
  requests := b.requests
  issued := b.requestsIssued
  finished := b.requestsFinished
  keepAlive := b.keepAlive
  quit := b.quit

variable {b b' : Bench} {content : List UInt8} {heard : Bool} {cli fd : Nat} {c c' : BenchClient}
  {w : Nat → Nat → Nat}

/-- The counters do not matter to the clients. -/
theorem Bench.Wf.congr (wf : b.Wf content heard) (el : b'.el = b.el)
    (clients : b'.clients = b.clients) (heap : b'.heap = b.heap) (fdOpen : b'.fdOpen = b.fdOpen) :
    b'.Wf content heard := by
  obtain ⟨nodup, listed, apart, isOpen, fits, quiet⟩ := wf
  rw [← clients] at nodup listed
  rw [← heap] at listed apart isOpen fits quiet
  rw [← fdOpen] at isOpen
  rw [← el] at fits quiet
  exact ⟨nodup, listed, apart, isOpen, fits, quiet⟩

/-! ## The event loop -/

theorem Bench.Wf.inside (wf : b.Wf content heard) (set : (b.el.events fd).mask ≠ aeNone) :
    fd < aeSetsize := by
  by_contra outside
  refine set (wf.quiet fd fun cli c live same => outside ?_)
  subst same
  exact (wf.fits live).inside set

theorem events_ignore (inside : (b.el.events fd).mask ≠ aeNone → fd < aeSetsize) (mask : AeMask) :
    (b.ignore fd mask).el.events fd =
      { b.el.events fd with mask := (b.el.events fd).mask.andNot mask } := by
  by_cases low : fd < aeSetsize
  · exact mask_aeDeleteFileEvent b.el low mask
  · have none : (b.el.events fd).mask = aeNone := by
      by_contra set
      exact low (inside set)
    unfold Bench.ignore aeDeleteFileEvent
    rw [if_pos (Nat.le_of_not_lt low), none]
    cases entry : b.el.events fd
    rw [entry] at none
    cases none
    rfl

theorem events_ignore_ne (b : Bench) (mask : AeMask) {other : Nat} (ne : other ≠ fd) :
    (b.ignore fd mask).el.events other = b.el.events other :=
  events_aeDeleteFileEvent_ne b.el mask ne

theorem AeMask.andNot_writable_readable (mask : AeMask) :
    (mask.andNot aeWritable).andNot aeReadable = aeNone := by
  cases mask
  simp [AeMask.andNot, aeWritable, aeReadable, aeNone]

/-- Both events of a client are taken back. -/
theorem Bench.Wf.silenced (wf : b.Wf content heard) (fd : Nat) :
    (((b.ignore fd aeWritable).ignore fd aeReadable).el.events fd).mask = aeNone := by
  have first := events_ignore (fun set : (b.el.events fd).mask ≠ aeNone => wf.inside set) aeWritable
  have second : (((b.ignore fd aeWritable).ignore fd aeReadable).el.events fd).mask =
      ((b.ignore fd aeWritable).el.events fd).mask.andNot aeReadable := by
    refine congrArg AeFileEvent.mask (events_ignore (fun set => wf.inside fun none => set ?_) _)
    rw [first, none]
    rfl
  rw [second, first]
  exact AeMask.andNot_writable_readable _

theorem events_listen_ne (b : Bench) (mask : AeMask) (proc : BenchProc) (addOk : Bool) {other : Nat}
    (ne : other ≠ fd) : (b.listen fd mask proc cli addOk).el.events other = b.el.events other := by
  unfold Bench.listen
  cases created : aeCreateFileEvent b.el fd mask proc cli addOk with
  | none => rfl
  | some el => exact events_of_aeCreateFileEvent_ne created ne

/-- Nothing was registered for the descriptor. -/
theorem events_listen (none : (b.el.events fd).mask = aeNone) (mask : AeMask) (proc : BenchProc)
    (addOk : Bool) :
    ((b.listen fd mask proc cli addOk).el.events fd).mask = aeNone ∧
        ¬ (addOk = true ∧ fd < aeSetsize) ∨
      fd < aeSetsize ∧ ((b.listen fd mask proc cli addOk).el.events fd).mask = mask ∧
        ((b.listen fd mask proc cli addOk).el.events fd).clientData = some cli ∧
        (mask.readable = true →
          ((b.listen fd mask proc cli addOk).el.events fd).rFileProc = some proc) ∧
        (mask.writable = true →
          ((b.listen fd mask proc cli addOk).el.events fd).wFileProc = some proc) := by
  unfold Bench.listen
  cases created : aeCreateFileEvent b.el fd mask proc cli addOk with
  | none =>
      refine .inl ⟨none, ?_⟩
      rintro ⟨rfl, inside⟩
      unfold aeCreateFileEvent at created
      rw [if_neg (Nat.not_le.mpr inside), if_pos rfl] at created
      cases created
  | some el =>
      obtain ⟨inside, events⟩ := events_of_aeCreateFileEvent created
      refine .inr ⟨inside, ?_⟩
      rw [Option.getD_some, events, Function.update_self]
      refine ⟨?_, rfl, fun set => if_pos set, fun set => if_pos set⟩
      unfold AeFileEvent.register AeMask.or
      rw [none]
      rfl

/-- A client for which nothing is registered. -/
theorem fits_of_none {fe : AeFileEvent BenchProc Nat} (off : fe.mask = aeNone)
    (obuf : c.obuf = content) (deaf : heard ≠ true) : c.Fits content heard fe cli := by
  refine ⟨obuf, fun set => absurd off set, fun set => absurd off set, ?_, ?_,
    fun hears => absurd hears deaf, fun hears => absurd hears deaf, fun hears => absurd hears deaf⟩
  · rw [off]
    rintro ⟨⟩
  · rw [off]
    rintro ⟨⟩

/-- A client that is registered to send its request. -/
theorem fits_listen_writable (none : (b.el.events c.fd).mask = aeNone) (obuf : c.obuf = content)
    (nonempty : 0 < content.length) (fresh : c.written = 0 ∧ c.read = 0) {addOk : Bool}
    (room : heard = true → addOk = true ∧ c.fd < aeSetsize) :
    c.Fits content heard ((b.listen c.fd aeWritable .writeHandler cli addOk).el.events c.fd)
      cli := by
  rcases events_listen none aeWritable .writeHandler addOk with
    ⟨off, full⟩ | ⟨inside, on, data, -, proc⟩
  · exact fits_of_none off obuf fun hears => full (room hears)
  · refine ⟨obuf, fun _ => inside, fun _ => data, ?_, fun _ => ⟨proc rfl, by omega⟩, ?_, ?_, ?_⟩
    · rw [on]
      rintro ⟨⟩
    · rw [on]
      exact fun _ _ => rfl
    · intro _ all
      omega
    · intro _
      omega

/-- A client that is registered to hear the answer. -/
theorem fits_listen_readable (none : (b.el.events c.fd).mask = aeNone) (obuf : c.obuf = content)
    (sent : c.written = content.length) {addOk : Bool}
    (room : heard = true → addOk = true ∧ c.fd < aeSetsize ∧ c.read ≤ content.length) :
    c.Fits content heard ((b.listen c.fd aeReadable .readHandler cli addOk).el.events c.fd)
      cli := by
  rcases events_listen none aeReadable .readHandler addOk with
    ⟨off, full⟩ | ⟨inside, on, data, proc, -⟩
  · exact fits_of_none off obuf fun hears => full ⟨(room hears).1, (room hears).2.1⟩
  · refine ⟨obuf, fun _ => inside, fun _ => data, fun _ => ⟨proc rfl, sent⟩, ?_, ?_, ?_, ?_⟩
    · rw [on]
      rintro ⟨⟩
    · intro _ less
      omega
    · rw [on]
      exact fun _ _ => rfl
    · exact fun hears => ⟨(room hears).2.2, Nat.le_of_eq sent⟩

/-! ## Freeing and creating -/

theorem freeBenchClient_of_live (wf : b.Wf content heard) (live : b.heap cli = some c) :
    ∃ b', freeBenchClient b cli = .ok b' ∧ b.Drops b' cli c ∧
      b'.tally = { b.tally with live := toInt32 (b.tally.live - 1) } := by
  have listed : cli ∈ b.clients := (wf.listed cli).mpr ⟨c, live⟩
  unfold freeBenchClient
  rw [Bench.client_of_live live]
  refine ⟨_, if_pos listed, ⟨live, rfl, rfl, rfl, fun fd ne => ?_, wf.silenced c.fd⟩, rfl⟩
  exact (events_ignore_ne _ aeReadable ne).trans (events_ignore_ne b aeWritable ne)

/-- Room in the event loop for new clients. -/
def Room (answer : Option ConnectAnswer) : Prop :=
  ∀ new, answer = some new → new.addOk = true ∧ new.fd < aeSetsize

theorem createBenchClient_ends (wf : b.Wf content heard) (nonempty : 0 < content.length)
    {answer : Option ConnectAnswer} (room : heard = true → Room answer) :
    Ends (createBenchClient b content answer) fun b' => b'.Wf content heard ∧
      b'.tally = { b.tally with live := toInt32 (b.tally.live + 1) } ∧
      (∀ w, b'.total w = b.total w + w 0 0) ∧
      (∃ cli, b'.clients = b.clients ++ [cli] ∧ ∃ c, b'.heap cli = some c ∧ c.obuf = content) ∧
      ∀ cli c, b.heap cli = some c → b'.heap cli = some c := by
  cases answer with
  | none => exact fun broken => by cases broken
  | some new =>
      unfold createBenchClient
      simp only
      split
      · next fresh =>
          obtain ⟨shut, unused⟩ := fresh
          generalize made : Bench.mk _ _ _ _ _ _ _ _ _ _ _ = b'
          have adds : b.Adds b' new.addr ⟨new.fd, content, 0, 0⟩ := by
            subst made
            refine ⟨unused, shut, rfl, rfl, rfl, fun fd ne => ?_⟩
            exact events_listen_ne _ aeWritable .writeHandler new.addOk ne
          have fits : BenchClient.Fits content heard (b'.el.events new.fd) new.addr
              ⟨new.fd, content, 0, 0⟩ := by
            subst made
            exact fits_listen_writable (b := b) (c := ⟨new.fd, content, 0, 0⟩)
              (wf.quiet _ (wf.none_of_shut shut)) rfl nonempty ⟨rfl, rfl⟩
              fun hears => room hears new rfl
          refine ⟨wf.add adds fits, ?_, fun w => adds.total wf, ?_, ?_⟩
          · subst made
            rfl
          · exact ⟨new.addr, adds.clients, _, by rw [adds.heap, Function.update_self], rfl⟩
          · intro cli c live
            rw [adds.heap, Function.update_of_ne, live]
            rintro rfl
            rw [unused] at live
            cases live
      · exact fun broken => by cases broken

/-- What `create_missing_clients` leaves. -/
structure ClientsFilled (content : List UInt8) (heard : Bool) (cli : Nat) (c : BenchClient)
    (b b' : Bench) : Prop where
  wf : b'.Wf content heard
  tally : b'.tally = { b.tally with live := max b.tally.live b.tally.num }
  total : ∀ w, b'.total w =
    b.total w + (max b.tally.live b.tally.num - b.tally.live).toNat * w 0 0
  live : b'.heap cli = some c

theorem Bench.Wf.filled (wf : b.Wf content heard) (live : b.heap cli = some c)
    (enough : ¬ b.liveClients < b.numClients) : ClientsFilled content heard cli c b b := by
  have most : max b.tally.live b.tally.num = b.tally.live := max_eq_left (Int.not_lt.mp enough)
  refine ⟨wf, ?_, ?_, live⟩
  · rw [most]
  · intro w
    rw [most, Int.sub_self, Int.toNat_zero, Nat.zero_mul, Nat.add_zero]

/-- The clients that are missing are created, if `live_clients` is in its range. -/
theorem createMissingClients_ends (wf : b.Wf content heard) (nonempty : 0 < content.length)
    (live : b.heap cli = some c) (low : 0 ≤ b.tally.live) (high : b.tally.num < 2 ^ 31)
    {answers : List (Option ConnectAnswer)}
    (room : heard = true → ∀ answer ∈ answers, Room answer) :
    Ends (createMissingClients b cli answers) (ClientsFilled content heard cli c b) := by
  induction answers generalizing b with
  | nil =>
      unfold createMissingClients
      split
      · exact fun broken => by cases broken
      · next enough => exact wf.filled live enough
  | cons answer answers ih =>
      unfold createMissingClients
      split
      · next missing =>
          have missing : b.tally.live < b.tally.num := missing
          have obuf := (wf.fits live).obuf
          rw [Bench.client_of_live live]
          change Ends ((createBenchClient b c.obuf answer).bind _) _
          rw [obuf]
          refine (createBenchClient_ends wf nonempty fun hears =>
            room hears answer List.mem_cons_self).bind ?_
          rintro b₁ ⟨wf₁, tally, total, -, kept⟩
          rw [toInt32_of_range (by omega) (by omega)] at tally
          have next : b₁.tally.live = b.tally.live + 1 := by rw [tally]
          have num : b₁.tally.num = b.tally.num := by rw [tally]
          refine (ih wf₁ (kept cli c live) (by omega) (by omega)
            (fun hears other mem => room hears other (List.mem_cons_of_mem _ mem))).mono ?_
          rintro b₂ ⟨wf₂, tally₂, total₂, live₂⟩
          have most : max (b.tally.live + 1) b.tally.num = max b.tally.live b.tally.num := by omega
          rw [next, num, most] at tally₂ total₂
          refine ⟨wf₂, ?_, fun w => ?_, live₂⟩
          · rw [tally₂, tally]
          · have count : (max b.tally.live b.tally.num - b.tally.live).toNat =
                (max b.tally.live b.tally.num - (b.tally.live + 1)).toNat + 1 := by omega
            rw [total₂, total, count, Nat.succ_mul]
            omega
      · next enough => exact wf.filled live enough

/-! ## An answered request -/

theorem resetBenchClient_ends (wf : b.Wf content heard) (nonempty : 0 < content.length)
    (live : b.heap cli = some c) {addOk : Bool}
    (room : heard = true → addOk = true ∧ c.fd < aeSetsize) :
    Ends (resetBenchClient b cli addOk) fun b' => b'.Wf content heard ∧ b'.tally = b.tally ∧
      ∀ w, b'.total w + w c.written c.read = b.total w + w 0 0 := by
  unfold resetBenchClient
  rw [Bench.client_of_live live]
  simp only [Except.map]
  generalize made : Bench.setClient _ cli _ = b'
  have changes : b.Changes b' cli c { c with written := 0, read := 0 } := by
    subst made
    refine ⟨live, rfl, rfl, rfl, rfl, fun fd ne => ?_⟩
    exact (events_listen_ne _ aeWritable .writeHandler addOk ne).trans
      ((events_ignore_ne _ aeReadable ne).trans (events_ignore_ne b aeWritable ne))
  have fits : BenchClient.Fits content heard (b'.el.events c.fd) cli
      { c with written := 0, read := 0 } := by
    subst made
    exact fits_listen_writable (c := { c with written := 0, read := 0 }) (wf.silenced c.fd)
      (wf.fits live).obuf nonempty ⟨rfl, rfl⟩ room
  have wf' := wf.change changes fits
  refine ⟨wf', ?_, fun w => changes.total wf wf'⟩
  subst made
  rfl

/-- How `client_done` ends for a client that has written `m` bytes and read `r`. -/
inductive DoneFate (t t' : Tally) (sum sum' : (Nat → Nat → Nat) → Nat) (m r : Nat) : Prop
  | last : t.finished = t.requests →
      t' = { t with live := toInt32 (t.live - 1), quit := true } →
      (∀ w, sum' w + w m r = sum w) → DoneFate t t' sum sum' m r
  | reset : t.finished ≠ t.requests → t' = t → (∀ w, sum' w + w m r = sum w + w 0 0) →
      DoneFate t t' sum sum' m r
  | renewed : t.finished ≠ t.requests → t' = { t with live := t.num } →
      (∀ w, sum' w + w m r = sum w + (t.num - t.live + 1).toNat * w 0 0) →
      DoneFate t t' sum sum' m r

theorem clientDone_ends (wf : b.Wf content heard) (nonempty : 0 < content.length)
    (live : b.heap cli = some c) (low : 1 ≤ b.tally.live) (most : b.tally.live ≤ b.tally.num)
    (high : b.tally.num < 2 ^ 31 - 1) {env : DoneEnv}
    (room : heard = true → env.addOk = true ∧ c.fd < aeSetsize ∧
      ∀ answer ∈ env.connects, Room answer) :
    Ends (clientDone b cli env) fun b' => b'.Wf content heard ∧
      DoneFate b.tally b'.tally b.total b'.total c.written c.read := by
  unfold clientDone
  split
  · next all =>
      obtain ⟨b', freed, drops, tally⟩ := freeBenchClient_of_live wf live
      rw [freed]
      have total := fun w => drops.total wf (w := w)
      refine ⟨(wf.drop drops).congr rfl rfl rfl rfl, .last all ?_ total⟩
      change { b'.tally with quit := true } = _
      rw [tally]
  · next more =>
      split
      · refine (resetBenchClient_ends wf nonempty live
          fun hears => ⟨(room hears).1, (room hears).2.1⟩).mono ?_
        rintro b' ⟨wf', tally, total⟩
        exact ⟨wf', .reset more tally total⟩
      · have less : toInt32 (b.liveClients - 1) = b.liveClients - 1 := by
          change 1 ≤ b.liveClients at low
          change b.liveClients ≤ b.numClients at most
          change b.numClients < 2 ^ 31 - 1 at high
          exact toInt32_of_range (by omega) (by omega)
        simp only
        rw [less]
        generalize made : Bench.mk _ _ _ _ _ _ _ _ _ _ _ = b₁
        have wf₁ : b₁.Wf content heard := made ▸ wf.congr rfl rfl rfl rfl
        have live₁ : b₁.heap cli = some c := made ▸ live
        have tally₁ : b₁.tally = { b.tally with live := b.tally.live - 1 } := by
          subst made
          rfl
        have total₁ : ∀ w, b₁.total w = b.total w := by
          subst made
          exact fun w => rfl
        have num₁ : b₁.tally.num = b.tally.num := by rw [tally₁]
        have count₁ : b₁.tally.live = b.tally.live - 1 := by rw [tally₁]
        refine (createMissingClients_ends wf₁ nonempty live₁ (by omega) (by omega)
          fun hears => (room hears).2.2).bind ?_
        rintro b₂ ⟨wf₂, tally₂, total₂, live₂⟩
        have full : max b₁.tally.live b₁.tally.num = b.tally.num := by omega
        rw [full, tally₁] at tally₂
        have count₂ : toInt32 (b₂.liveClients + 1) = b.tally.num + 1 := by
          have all : b₂.liveClients = b.tally.num := congrArg Tally.live tally₂
          rw [all]
          exact toInt32_of_range (by omega) (by omega)
        rw [count₂]
        generalize made₃ : Bench.mk _ _ _ _ _ _ _ _ _ _ _ = b₃
        have wf₃ : b₃.Wf content heard := made₃ ▸ wf₂.congr rfl rfl rfl rfl
        have live₃ : b₃.heap cli = some c := made₃ ▸ live₂
        have tally₃ : b₃.tally = { b.tally with live := b.tally.num + 1 } := by
          subst made₃
          exact congrArg (fun t : Tally => { t with live := b.tally.num + 1 }) tally₂
        have total₃ : ∀ w, b₃.total w = b₂.total w := by
          subst made₃
          exact fun w => rfl
        obtain ⟨b', freed, drops, tally⟩ := freeBenchClient_of_live wf₃ live₃
        rw [freed]
        refine ⟨wf₃.drop drops, .renewed more ?_ fun w => ?_⟩
        · rw [tally, tally₃]
          simp only [Int.add_sub_cancel]
          rw [toInt32_of_range (by omega) (by omega)]
        · have gone := drops.total wf₃ (w := w)
          rw [gone, total₃, total₂, total₁, full, count₁]
          congr 3
          omega

end Verben
