import Mathlib.Algebra.BigOperators.Group.List.Basic
import Mathlib.Algebra.GroupWithZero.Nat
import Mathlib.Algebra.Order.BigOperators.Group.List
import Mathlib.Data.List.Nodup
import Verben.Bench.Model

/-!
# The clients of the benchmark

What the callbacks keep about memory: the list has every client once, clients have descriptors of
their own, and what the event loop has registered for a descriptor is its client's. With an event
loop that has room and a server that sends back no more than it got (`heard`), every client is
also registered for what it waits for.
-/

namespace Verben

open CInt

/-- The callback ends: if it returns, in such a state, and if not, nothing is broken. -/
def Ends (r : BenchResult) (P : Bench → Prop) : Prop :=
  match r with
  | .ok b => P b
  | .error stop => stop ≠ .broken

theorem Ends.bind {r : BenchResult} {f : Bench → BenchResult} {P Q : Bench → Prop}
    (ends : Ends r P) (more : ∀ b, P b → Ends (f b) Q) : Ends (r.bind f) Q := by
  cases r with
  | ok b => exact more b ends
  | error stop => exact ends

theorem Ends.map {r : BenchResult} {f : Bench → Bench} {P Q : Bench → Prop} (ends : Ends r P)
    (more : ∀ b, P b → Q (f b)) : Ends (r.map f) Q := by
  cases r with
  | ok b => exact more b ends
  | error stop => exact ends

theorem Ends.mono {r : BenchResult} {P Q : Bench → Prop} (ends : Ends r P)
    (more : ∀ b, P b → Q b) : Ends r Q := by
  cases r with
  | ok b => exact more b ends
  | error stop => exact ends

/-- What is registered for a client, and if it is `heard`, that it is what it waits for. -/
structure BenchClient.Fits (content : List UInt8) (heard : Bool)
    (fe : AeFileEvent BenchProc Nat) (cli : Nat) (c : BenchClient) : Prop where
  obuf : c.obuf = content
  inside : fe.mask ≠ aeNone → c.fd < aeSetsize
  data : fe.mask ≠ aeNone → fe.clientData = some cli
  reader : fe.mask.readable = true →
    fe.rFileProc = some .readHandler ∧ c.written = content.length
  writer : fe.mask.writable = true →
    fe.wFileProc = some .writeHandler ∧ c.written < content.length
  sends : heard = true → c.written < content.length → fe.mask.writable = true
  waits : heard = true → c.written = content.length → fe.mask.readable = true
  owed : heard = true → c.read ≤ content.length ∧ c.written ≤ content.length

/-- The clients in the list, in memory, and in the event loop. -/
structure Bench.Wf (content : List UInt8) (heard : Bool) (b : Bench) : Prop where
  nodup : b.clients.Nodup
  listed : ∀ cli, cli ∈ b.clients ↔ ∃ c, b.heap cli = some c
  apart : ∀ {cli cli' c c'}, b.heap cli = some c → b.heap cli' = some c' → c.fd = c'.fd → cli = cli'
  isOpen : ∀ {cli c}, b.heap cli = some c → b.fdOpen c.fd = true
  fits : ∀ {cli c}, b.heap cli = some c → c.Fits content heard (b.el.events c.fd) cli
  quiet : ∀ fd, (∀ cli c, b.heap cli = some c → c.fd ≠ fd) → (b.el.events fd).mask = aeNone

/-- What one client brings into a sum. -/
def Bench.share (b : Bench) (w : Nat → Nat → Nat) (cli : Nat) : Nat :=
  (b.heap cli).elim 0 fun c => w c.written c.read

/-- The sum of something over all clients. -/
def Bench.total (b : Bench) (w : Nat → Nat → Nat) : Nat := (b.clients.map (b.share w)).sum

variable {b b' : Bench} {content : List UInt8} {heard : Bool} {cli : Nat} {c c' : BenchClient}
  {w : Nat → Nat → Nat}

theorem Bench.client_of_live (live : b.heap cli = some c) : b.client cli = .ok c := by
  unfold Bench.client
  rw [live]

/-! ## One client more, one less, or one that changes -/

/-- `b'` is `b`, but for one client and what is registered for it. -/
structure Bench.Changes (b b' : Bench) (cli : Nat) (c c' : BenchClient) : Prop where
  live : b.heap cli = some c
  heap : b'.heap = Function.update b.heap cli (some c')
  fd : c'.fd = c.fd
  clients : b'.clients = b.clients
  fdOpen : b'.fdOpen = b.fdOpen
  others : ∀ fd, fd ≠ c.fd → b'.el.events fd = b.el.events fd

theorem Bench.Wf.change (wf : b.Wf content heard) (changes : b.Changes b' cli c c')
    (fits : c'.Fits content heard (b'.el.events c.fd) cli) : b'.Wf content heard := by
  obtain ⟨live, heap, fd, clients, fdOpen, others⟩ := changes
  -- every client of `b'` is one of `b` on the same descriptor
  have before : ∀ {other d}, b'.heap other = some d →
      other = cli ∧ d = c' ∨ other ≠ cli ∧ b.heap other = some d := by
    intro other d here
    rw [heap] at here
    by_cases same : other = cli
    · subst same
      rw [Function.update_self] at here
      exact .inl ⟨rfl, (Option.some.inj here).symm⟩
    · rw [Function.update_of_ne same] at here
      exact .inr ⟨same, here⟩
  refine ⟨clients ▸ wf.nodup, ?_, ?_, ?_, ?_, ?_⟩
  · intro other
    rw [clients, wf.listed, heap]
    by_cases same : other = cli
    · subst same
      rw [Function.update_self]
      exact ⟨fun _ => ⟨c', rfl⟩, fun _ => ⟨c, live⟩⟩
    · rw [Function.update_of_ne same]
  · intro x y d e here there same
    rcases before here with ⟨rfl, rfl⟩ | ⟨ne, here⟩ <;>
      rcases before there with ⟨rfl, rfl⟩ | ⟨ne', there⟩
    · rfl
    · exact wf.apart live there (fd.symm.trans same)
    · exact wf.apart here live (same.trans fd)
    · exact wf.apart here there same
  · intro x d here
    rw [fdOpen]
    rcases before here with ⟨rfl, rfl⟩ | ⟨ne, here⟩
    · rw [fd]
      exact wf.isOpen live
    · exact wf.isOpen here
  · intro x d here
    rcases before here with ⟨rfl, rfl⟩ | ⟨ne, here⟩
    · rw [fd]
      exact fits
    · rw [others _ fun same => ne (wf.apart here live same)]
      exact wf.fits here
  · intro other none
    have ne : other ≠ c.fd := by
      rintro rfl
      exact none cli c' (by rw [heap, Function.update_self]) fd
    rw [others other ne]
    refine wf.quiet other fun x d here same => ?_
    by_cases eq : x = cli
    · subst eq
      rw [live] at here
      cases here
      exact ne same.symm
    · exact none x d (by rwa [heap, Function.update_of_ne eq]) same

/-- `b'` is `b` without one client. -/
structure Bench.Drops (b b' : Bench) (cli : Nat) (c : BenchClient) : Prop where
  live : b.heap cli = some c
  heap : b'.heap = Function.update b.heap cli none
  clients : b'.clients = b.clients.erase cli
  fdOpen : b'.fdOpen = Function.update b.fdOpen c.fd false
  others : ∀ fd, fd ≠ c.fd → b'.el.events fd = b.el.events fd
  silent : (b'.el.events c.fd).mask = aeNone

theorem Bench.Wf.drop (wf : b.Wf content heard) (drops : b.Drops b' cli c) :
    b'.Wf content heard := by
  obtain ⟨live, heap, clients, fdOpen, others, silent⟩ := drops
  have before : ∀ {other d}, b'.heap other = some d → other ≠ cli ∧ b.heap other = some d := by
    intro other d here
    rw [heap] at here
    by_cases same : other = cli
    · rw [same, Function.update_self] at here
      cases here
    · rw [Function.update_of_ne same] at here
      exact ⟨same, here⟩
  refine ⟨clients ▸ wf.nodup.erase cli, ?_, ?_, ?_, ?_, ?_⟩
  · intro other
    rw [clients, wf.nodup.mem_erase_iff, wf.listed, heap]
    by_cases same : other = cli
    · rw [same, Function.update_self]
      simp
    · rw [Function.update_of_ne same]
      simp [same]
  · intro x y d e here there same
    exact wf.apart (before here).2 (before there).2 same
  · intro x d here
    obtain ⟨ne, here⟩ := before here
    rw [fdOpen, Function.update_of_ne fun same => ne (wf.apart here live same)]
    exact wf.isOpen here
  · intro x d here
    obtain ⟨ne, here⟩ := before here
    rw [others _ fun same => ne (wf.apart here live same)]
    exact wf.fits here
  · intro other none
    by_cases same : other = c.fd
    · rw [same]
      exact silent
    · rw [others other same]
      refine wf.quiet other fun x d here eq => ?_
      by_cases self : x = cli
      · subst self
        rw [live] at here
        cases here
        exact same eq.symm
      · exact none x d (by rwa [heap, Function.update_of_ne self]) eq

/-- `b'` is `b` with one client more. -/
structure Bench.Adds (b b' : Bench) (cli : Nat) (c : BenchClient) : Prop where
  unused : b.heap cli = none
  shut : b.fdOpen c.fd = false
  heap : b'.heap = Function.update b.heap cli (some c)
  clients : b'.clients = b.clients ++ [cli]
  fdOpen : b'.fdOpen = Function.update b.fdOpen c.fd true
  others : ∀ fd, fd ≠ c.fd → b'.el.events fd = b.el.events fd

/-- Nothing is registered for a descriptor that is not open. -/
theorem Bench.Wf.none_of_shut (wf : b.Wf content heard) {fd : Nat} (shut : b.fdOpen fd = false) :
    ∀ cli c, b.heap cli = some c → c.fd ≠ fd := by
  rintro cli c live rfl
  exact absurd (wf.isOpen live) (by rw [shut]; simp)

theorem Bench.Wf.add (wf : b.Wf content heard) (adds : b.Adds b' cli c)
    (fits : c.Fits content heard (b'.el.events c.fd) cli) : b'.Wf content heard := by
  obtain ⟨unused, shut, heap, clients, fdOpen, others⟩ := adds
  have free := wf.none_of_shut shut
  have before : ∀ {other d}, b'.heap other = some d →
      other = cli ∧ d = c ∨ other ≠ cli ∧ b.heap other = some d := by
    intro other d here
    rw [heap] at here
    by_cases same : other = cli
    · subst same
      rw [Function.update_self] at here
      exact .inl ⟨rfl, (Option.some.inj here).symm⟩
    · rw [Function.update_of_ne same] at here
      exact .inr ⟨same, here⟩
  have new : cli ∉ b.clients := by
    rw [wf.listed, unused]
    simp
  refine ⟨?_, ?_, ?_, ?_, ?_, ?_⟩
  · rw [clients, ← List.concat_eq_append]
    exact wf.nodup.concat new
  · intro other
    rw [clients, List.mem_append, List.mem_singleton, wf.listed, heap]
    by_cases same : other = cli
    · subst same
      rw [Function.update_self]
      simp
    · rw [Function.update_of_ne same]
      simp [same]
  · intro x y d e here there same
    rcases before here with ⟨rfl, rfl⟩ | ⟨ne, here⟩ <;>
      rcases before there with ⟨rfl, rfl⟩ | ⟨ne', there⟩
    · rfl
    · exact absurd same.symm (free y e there)
    · exact absurd same (free x d here)
    · exact wf.apart here there same
  · intro x d here
    rw [fdOpen]
    rcases before here with ⟨rfl, rfl⟩ | ⟨ne, here⟩
    · exact Function.update_self ..
    · rw [Function.update_of_ne (free x d here)]
      exact wf.isOpen here
  · intro x d here
    rcases before here with ⟨rfl, rfl⟩ | ⟨ne, here⟩
    · exact fits
    · rw [others _ (free x d here)]
      exact wf.fits here
  · intro other none
    have ne : other ≠ c.fd := by
      rintro rfl
      exact none cli c (by rw [heap, Function.update_self]) rfl
    rw [others other ne]
    refine wf.quiet other fun x d here same => ?_
    refine none x d ?_ same
    rw [heap, Function.update_of_ne, here]
    rintro rfl
    rw [unused] at here
    cases here

/-! ## Sums -/

theorem Bench.share_of_live (live : b.heap cli = some c) : b.share w cli = w c.written c.read := by
  unfold Bench.share
  rw [live]
  rfl

/-- Clients that are the same bring the same. -/
theorem Bench.map_share {clients : List Nat}
    (same : ∀ other ∈ clients, b'.heap other = b.heap other) :
    clients.map (b'.share w) = clients.map (b.share w) :=
  List.map_congr_left fun other mem => by
    unfold Bench.share
    rw [same other mem]

/-- One client's share, and that of the others. -/
theorem Bench.Wf.total_split (wf : b.Wf content heard) (live : b.heap cli = some c) :
    b.total w = w c.written c.read + ((b.clients.erase cli).map (b.share w)).sum := by
  have mem := (wf.listed cli).mpr ⟨c, live⟩
  rw [Bench.total, ← List.sum_map_erase (b.share w) mem, share_of_live live]

theorem Bench.Drops.total (wf : b.Wf content heard) (drops : b.Drops b' cli c) :
    b'.total w + w c.written c.read = b.total w := by
  obtain ⟨live, heap, clients, -⟩ := drops
  have same : (b.clients.erase cli).map (b'.share w) = (b.clients.erase cli).map (b.share w) := by
    refine map_share fun other mem => ?_
    rw [heap, Function.update_of_ne (wf.nodup.mem_erase_iff.mp mem).1]
  rw [wf.total_split live, Bench.total, clients, same]
  exact Nat.add_comm ..

theorem Bench.Changes.total (wf : b.Wf content heard) (changes : b.Changes b' cli c c')
    (wf' : b'.Wf content heard) :
    b'.total w + w c.written c.read = b.total w + w c'.written c'.read := by
  obtain ⟨live, heap, -, clients, -⟩ := changes
  have same : (b.clients.erase cli).map (b'.share w) = (b.clients.erase cli).map (b.share w) := by
    refine map_share fun other mem => ?_
    rw [heap, Function.update_of_ne (wf.nodup.mem_erase_iff.mp mem).1]
  have live' : b'.heap cli = some c' := by rw [heap, Function.update_self]
  rw [wf.total_split live, wf'.total_split live', clients, same]
  omega

theorem Bench.Adds.total (wf : b.Wf content heard) (adds : b.Adds b' cli c) :
    b'.total w = b.total w + w c.written c.read := by
  obtain ⟨unused, -, heap, clients, -⟩ := adds
  have same : b.clients.map (b'.share w) = b.clients.map (b.share w) := by
    refine map_share fun other mem => ?_
    rw [heap, Function.update_of_ne]
    rintro rfl
    obtain ⟨d, live⟩ := (wf.listed other).mp mem
    rw [unused] at live
    cases live
  have live' : b'.heap cli = some c := by rw [heap, Function.update_self]
  rw [Bench.total, clients, List.map_append, List.sum_append, same, List.map_singleton,
    List.sum_singleton, share_of_live live']
  rfl

end Verben
