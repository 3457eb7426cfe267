import Verben.Bench.Step

/-!
# How a callback of the benchmark ends

The callbacks of `src/echo_benchmark.c` on clients that are registered for them. Each ends in one
of the ways of `BenchFate`; whether the kernel and the server were fair to the client (`Bench.Fair`)
matters only to clients that are `heard`.
-/

namespace Verben

open CInt

/-- The kernel has room for events, the server sends back no more than it got, and `write` does
not fail. -/
def Bench.Fair (b : Bench) : BenchAct → Prop
  | .readable fd answer env => env.addOk = true ∧ (∀ new ∈ env.connects, Room new) ∧
      ∀ nread, answer = .data nread → ∀ cli c, b.heap cli = some c → c.fd = fd →
        c.read + nread ≤ c.written
  | .writable _ answer addOk => answer ≠ .failed ∧ addOk = true

/-- `write` fails. -/
def BenchAct.Fails : BenchAct → Prop
  | .writable _ .failed _ => True
  | _ => False

/-- `read` has nothing yet. -/
def BenchAct.Idle : BenchAct → Prop
  | .readable _ .again _ => True
  | _ => False

/-- A request is issued if nothing of it was written before. -/
def Tally.issue (t : Tally) (m : Nat) : Tally :=
  { t with issued := if m = 0 then toInt32 (t.issued + 1) else t.issued }

/-- How a callback ends, by the counters and by a sum over the clients, of which one has written `m`
bytes of `len` and read `r`: nothing happens; the client is not needed for another request, or
cannot send it, and is freed; a part of the request is sent, or a part of the answer is there; or
all of it is. -/
inductive BenchFate (len : Nat) (heard : Bool) (act : BenchAct) (t t' : Tally)
    (sum sum' : (Nat → Nat → Nat) → Nat) : Prop
  | idle : act.Idle → t' = t → (∀ w, sum' w = sum w) → BenchFate len heard act t t' sum sum'
  | spare (r : Nat) : t.requests ≤ t.issued →
      t' = { t.issue 0 with live := toInt32 (t.live - 1) } →
      (∀ w, sum' w + w 0 r = sum w) → BenchFate len heard act t t' sum sum'
  | lost (m r : Nat) : act.Fails → (m = 0 → t.issued < t.requests) →
      t' = { t.issue m with live := toInt32 (t.live - 1) } →
      (∀ w, sum' w + w m r = sum w) → BenchFate len heard act t t' sum sum'
  | sent (m r n : Nat) : (m = 0 → t.issued < t.requests) → 0 < n → m + n ≤ len →
      t' = t.issue m → (∀ w, sum' w + w m r = sum w + w (m + n) r) →
      BenchFate len heard act t t' sum sum'
  | got (r r' : Nat) : r' ≠ len → (heard = true → r < r' ∧ r' < len) → t' = t →
      (∀ w, sum' w + w len r = sum w + w len r') → BenchFate len heard act t t' sum sum'
  | done (r : Nat) :
      DoneFate { t with finished := toInt32 (t.finished + 1) } t' sum sum' len r →
      BenchFate len heard act t t' sum sum'

variable {b b' : Bench} {content : List UInt8} {heard : Bool} {cli fd : Nat} {c c' : BenchClient}
  {w : Nat → Nat → Nat} {act : BenchAct}

/-! ## Reading -/

/-- The sum before the last bytes were read. -/
theorem DoneFate.before {t t' : Tally} {sum sum₁ sum' : (Nat → Nat → Nat) → Nat} {m r r' : Nat}
    (fate : DoneFate t t' sum₁ sum' m r')
    (before : ∀ w, sum₁ w + w m r = sum w + w m r') : DoneFate t t' sum sum' m r := by
  cases fate with
  | last all tally total =>
      refine .last all tally fun w => ?_
      have := before w
      have := total w
      omega
  | reset more tally total =>
      refine .reset more tally fun w => ?_
      have := before w
      have := total w
      omega
  | renewed more tally total =>
      refine .renewed more tally fun w => ?_
      have := before w
      have := total w
      omega

/-- Reading changes nothing that the event loop looks at. -/
theorem BenchClient.Fits.read {fe : AeFileEvent BenchProc Nat} {r : Nat}
    (fits : c.Fits content heard fe cli) (owed : heard = true → r ≤ content.length) :
    BenchClient.Fits content heard fe cli { c with read := r } :=
  ⟨fits.obuf, fits.inside, fits.data, fits.reader, fits.writer, fits.sends, fits.waits,
    fun hears => ⟨owed hears, (fits.owed hears).2⟩⟩

theorem readHandler_ends (wf : b.Wf content heard) (nonempty : 0 < content.length)
    (short : content.length < 2 ^ 31) (live : b.heap cli = some c)
    (sent : c.written = content.length) (inside : c.fd < aeSetsize) (low : 1 ≤ b.tally.live)
    (most : b.tally.live ≤ b.tally.num) (high : b.tally.num < 2 ^ 31 - 1) {answer : BenchRead}
    {env : DoneEnv} (fair : heard = true → b.Fair (.readable c.fd answer env)) :
    Ends (readHandler b cli answer env) fun b' => b'.Wf content heard ∧
      BenchFate content.length heard (.readable c.fd answer env) b.tally b'.tally b.total
        b'.total := by
  cases answer with
  | again => exact ⟨wf, .idle trivial rfl fun w => rfl⟩
  | ended => exact fun broken => by cases broken
  | data nread =>
      unfold readHandler
      simp only
      split
      · next some' =>
          have obuf := (wf.fits live).obuf
          -- what the server sends back is owed, so the count does not overflow
          have owed : heard = true → c.read + nread ≤ content.length := fun hears =>
            sent ▸ (fair hears).2.2 nread rfl cli c live rfl
          have count : heard = true → (c.read + nread) % 2 ^ 32 = c.read + nread := fun hears =>
            Nat.mod_eq_of_lt (by have := owed hears; omega)
          rw [Bench.client_of_live live]
          simp only [Except.bind]
          rw [obuf]
          generalize read : (c.read + nread) % 2 ^ 32 = r at count
          generalize made : b.setClient cli _ = b₁
          have changes : b.Changes b₁ cli c { c with read := r } := by
            subst made read
            exact ⟨live, by rw [obuf]; rfl, rfl, rfl, rfl, fun _ _ => rfl⟩
          have el : b₁.el = b.el := by
            subst made
            rfl
          have fits : BenchClient.Fits content heard (b₁.el.events c.fd) cli
              { c with read := r } := by
            rw [el]
            exact (wf.fits live).read fun hears => count hears ▸ owed hears
          have wf₁ := wf.change changes fits
          have tally₁ : b₁.tally = b.tally := by
            subst made
            rfl
          have live₁ : b₁.heap cli = some { c with read := r } := by
            rw [changes.heap, Function.update_self]
          have total₁ : ∀ w, b₁.total w + w content.length c.read =
              b.total w + w content.length r := fun w =>
            sent ▸ changes.total wf wf₁ (w := w)
          split
          · next all =>
              generalize made₂ : Bench.mk _ _ _ _ _ _ _ _ _ _ _ = b₂
              have wf₂ : b₂.Wf content heard := made₂ ▸ wf₁.congr rfl rfl rfl rfl
              have tally₂ : b₂.tally =
                  { b.tally with finished := toInt32 (b.tally.finished + 1) } := by
                subst made₂
                exact congrArg (fun t : Tally => { t with finished := toInt32 (t.finished + 1) })
                  tally₁
              have live₂ : b₂.heap cli = some { c with read := r } := made₂ ▸ live₁
              have total₂ : ∀ w, b₂.total w = b₁.total w := by
                subst made₂
                exact fun w => rfl
              refine (clientDone_ends wf₂ nonempty live₂ (by rw [tally₂]; exact low)
                (by rw [tally₂]; exact most) (by rw [tally₂]; exact high)
                fun hears => ⟨(fair hears).1, inside, (fair hears).2.1⟩).mono ?_
              rintro b' ⟨wf', fate⟩
              refine ⟨wf', .done c.read ?_⟩
              rw [tally₂] at fate
              dsimp only at fate
              rw [sent] at fate
              exact fate.before fun w => (total₂ w).symm ▸ total₁ w
          · next more =>
              refine ⟨wf₁, .got c.read r more (fun hears => ?_) tally₁ total₁⟩
              have := owed hears
              have := count hears
              omega
      · exact fun broken => by cases broken

/-! ## Writing -/

/-- A client that has not sent its request is not registered for reading. -/
theorem BenchClient.Fits.deaf {fe : AeFileEvent BenchProc Nat} (fits : c.Fits content heard fe cli)
    (less : c.written < content.length) : fe.mask.readable = false := by
  by_contra set
  have := (fits.reader (Bool.not_eq_false _ ▸ set)).2
  omega

/-- More of the request is sent, and not yet all of it. -/
theorem BenchClient.Fits.write {fe : AeFileEvent BenchProc Nat} {m : Nat}
    (fits : c.Fits content heard fe cli) (less : c.written < content.length)
    (less' : m < content.length) : BenchClient.Fits content heard fe cli { c with written := m } :=
  ⟨fits.obuf, fits.inside, fits.data, fun set => absurd set (by rw [fits.deaf less]; simp),
    fun set => ⟨(fits.writer set).1, less'⟩, fun hears _ => fits.sends hears less,
    fun _ all => absurd less' (Nat.not_lt.mpr (Nat.le_of_eq all.symm)),
    fun hears => ⟨(fits.owed hears).1, Nat.le_of_lt less'⟩⟩

theorem writeRequest_ends (wf : b.Wf content heard) (live : b.heap cli = some c)
    (less : c.written < content.length) (inside : c.fd < aeSetsize) {answer : BenchWrite}
    {addOk : Bool} (room : heard = true → addOk = true) :
    Ends (writeRequest b cli answer addOk) fun b' => b'.Wf content heard ∧
      (answer = .failed ∧ b'.tally = { b.tally with live := toInt32 (b.tally.live - 1) } ∧
          (∀ w, b'.total w + w c.written c.read = b.total w) ∨
        ∃ n, 0 < n ∧ c.written + n ≤ content.length ∧ b'.tally = b.tally ∧
          ∀ w, b'.total w + w c.written c.read = b.total w + w (c.written + n) c.read) := by
  have fits := wf.fits live
  unfold writeRequest
  rw [Bench.client_of_live live]
  simp only [Except.bind]
  rw [fits.obuf, if_pos less]
  cases answer with
  | failed =>
      obtain ⟨b', freed, drops, tally⟩ := freeBenchClient_of_live wf live
      simp only
      rw [freed]
      exact ⟨wf.drop drops, .inl ⟨trivial, tally, fun w => drops.total wf⟩⟩
  | wrote nwritten =>
      simp only
      split
      · next takes =>
          split
          · next all =>
              generalize made : Bench.listen _ _ _ _ _ _ = b'
              have changes : b.Changes b' cli c
                  { c with written := c.written + nwritten } := by
                subst made
                refine ⟨live, by rw [fits.obuf]; rfl, rfl, rfl, rfl, fun fd ne => ?_⟩
                exact (events_listen_ne _ aeReadable .readHandler addOk ne).trans
                  (events_ignore_ne _ aeWritable ne)
              have off : ((b.ignore c.fd aeWritable).el.events c.fd).mask = aeNone := by
                rw [events_ignore (fun _ => inside) aeWritable]
                have readable := fits.deaf less
                revert readable
                cases (b.el.events c.fd).mask
                rintro rfl
                simp [AeMask.andNot, aeWritable, aeNone]
              have fits' : BenchClient.Fits content heard (b'.el.events c.fd) cli
                  { c with written := c.written + nwritten } := by
                subst made
                exact fits_listen_readable (b := b.ignore c.fd aeWritable)
                  (c := { c with written := c.written + nwritten }) off fits.obuf all
                  fun hears => ⟨room hears, inside, (fits.owed hears).1⟩
              have wf' := wf.change changes fits'
              refine ⟨wf', .inr ⟨nwritten, takes.1, Nat.le_of_eq all, ?_,
                fun w => changes.total wf wf'⟩⟩
              subst made
              rfl
          · next more =>
              generalize made : Bench.setClient _ _ _ = b'
              have changes : b.Changes b' cli c
                  { c with written := c.written + nwritten } := by
                subst made
                exact ⟨live, by rw [fits.obuf]; rfl, rfl, rfl, rfl, fun _ _ => rfl⟩
              have fits' : BenchClient.Fits content heard (b'.el.events c.fd) cli
                  { c with written := c.written + nwritten } := by
                subst made
                exact fits.write less (by omega)
              have wf' := wf.change changes fits'
              refine ⟨wf', .inr ⟨nwritten, takes.1, by omega, ?_, fun w => changes.total wf wf'⟩⟩
              subst made
              rfl
      · exact fun broken => by cases broken

theorem writeHandler_ends (wf : b.Wf content heard) (live : b.heap cli = some c)
    (less : c.written < content.length) (inside : c.fd < aeSetsize) {answer : BenchWrite}
    {addOk : Bool} (fair : heard = true → b.Fair (.writable c.fd answer addOk)) :
    Ends (writeHandler b cli answer addOk) fun b' => b'.Wf content heard ∧
      BenchFate content.length heard (.writable c.fd answer addOk) b.tally b'.tally b.total
        b'.total := by
  unfold writeHandler
  rw [Bench.client_of_live live]
  simp only [Except.bind]
  split
  · next fresh =>
      obtain ⟨b₁, made⟩ : ∃ b₁, b₁ = { b with requestsIssued := toInt32 (b.requestsIssued + 1) } :=
        ⟨_, rfl⟩
      have wf₁ : b₁.Wf content heard := made ▸ wf.congr rfl rfl rfl rfl
      have live₁ : b₁.heap cli = some c := made ▸ live
      have tally₁ : b₁.tally = b.tally.issue 0 := by
        subst made
        rfl
      have total₁ : ∀ w, b₁.total w = b.total w := by
        subst made
        exact fun w => rfl
      split
      · next enough =>
          obtain ⟨b', freed, drops, tally⟩ := freeBenchClient_of_live wf₁ live₁
          rw [← made, freed]
          refine ⟨wf₁.drop drops, .spare c.read enough ?_ fun w => ?_⟩
          · rw [tally, tally₁]
            rfl
          · have gone := drops.total wf₁ (w := w)
            rw [fresh, total₁] at gone
            exact gone
      · next more =>
          have more : b.tally.issued < b.tally.requests := Int.not_le.mp more
          rw [← made]
          refine (writeRequest_ends wf₁ live₁ less inside fun hears => (fair hears).2).mono ?_
          rintro b' ⟨wf', ⟨failed, tally, total⟩ | ⟨n, positive, fits, tally, total⟩⟩
          · refine ⟨wf', .lost c.written c.read (failed ▸ trivial) (fun _ => more) ?_ fun w => ?_⟩
            · rw [tally, tally₁, fresh]
              rfl
            · rw [total, total₁]
          · refine ⟨wf', .sent c.written c.read n (fun _ => more) positive fits ?_ fun w => ?_⟩
            · rw [tally, tally₁, fresh]
            · rw [total, total₁]
  · next started =>
      refine (writeRequest_ends wf live less inside fun hears => (fair hears).2).mono ?_
      have issued : b.tally.issue c.written = b.tally := by
        unfold Tally.issue
        rw [if_neg started]
      rintro b' ⟨wf', ⟨failed, tally, total⟩ | ⟨n, positive, fits, tally, total⟩⟩
      · refine ⟨wf', .lost c.written c.read (failed ▸ trivial) (fun zero => absurd zero started)
          ?_ total⟩
        rw [issued, tally]
      · refine ⟨wf', .sent c.written c.read n (fun zero => absurd zero started) positive fits ?_
          total⟩
        rw [issued, tally]

/-! ## A step -/

/-- The client of a descriptor that is registered. -/
theorem Bench.Wf.registered (wf : b.Wf content heard) (set : (b.el.events fd).mask ≠ aeNone) :
    ∃ cli c, b.heap cli = some c ∧ c.fd = fd ∧ (b.el.events fd).clientData = some cli ∧
      c.Fits content heard (b.el.events fd) cli := by
  by_contra none
  refine set (wf.quiet fd fun cli c live same => none ?_)
  subst same
  exact ⟨cli, c, live, rfl, (wf.fits live).data set, wf.fits live⟩

/-- Every event of a client leads to its callback, and this ends well. -/
theorem Bench.Wf.fire_ends (wf : b.Wf content heard) (nonempty : 0 < content.length)
    (short : content.length < 2 ^ 31) (low : b.clients ≠ [] → 1 ≤ b.tally.live)
    (most : b.tally.live ≤ b.tally.num) (high : b.tally.num < 2 ^ 31 - 1) (act : BenchAct)
    (fair : heard = true → b.Fair act) :
    Ends (b.fire act) fun b' => b'.Wf content heard ∧
      BenchFate content.length heard act b.tally b'.tally b.total b'.total := by
  have some' : ∀ {cli c}, b.heap cli = some c → b.clients ≠ [] := fun live =>
    List.ne_nil_of_mem ((wf.listed _).mpr ⟨_, live⟩)
  cases act with
  | readable fd answer env =>
      unfold Bench.fire
      simp only
      split
      · next set =>
          have set' : (b.el.events fd).mask ≠ aeNone := by
            intro none
            rw [none] at set
            cases set
          obtain ⟨cli, c, live, rfl, data, fits⟩ := wf.registered set'
          rw [(fits.reader set).1, data]
          exact readHandler_ends wf nonempty short live (fits.reader set).2 (fits.inside set')
            (low (some' live)) most high fair
      · exact fun broken => by cases broken
  | writable fd answer addOk =>
      unfold Bench.fire
      simp only
      split
      · next set =>
          have set' : (b.el.events fd).mask ≠ aeNone := by
            intro none
            rw [none] at set
            cases set
          obtain ⟨cli, c, live, rfl, data, fits⟩ := wf.registered set'
          rw [(fits.writer set).1, data]
          exact writeHandler_ends wf live (fits.writer set).2 (fits.inside set') fair
      · exact fun broken => by cases broken

end Verben
