import OpxCommonUtils.Console.Proofs.Calls
import OpxCommonUtils.Misc.Relay
import OpxCommonUtils.Misc.Steps

/-!
# The console proxy is a relay

Every round of the thread, and whatever the service, the clients and the kernel do in between, can
be followed by the relay between a service and one client at a time. No round goes wrong: the bytes
that are read fit into the buffer, the buffer always holds a string, and no descriptor is used after
it was closed.
-/

namespace OpxCommonUtils.Console

open Io

/-- What a new client is greeted with: the string that the bytes read last leave in the buffer. -/
def greet (last : List UInt8) : List UInt8 := last.takeWhile (· ≠ 0)

/-- The socket of a client, and the client as the relay knows it. -/
structure ClientRel (isOpen : Bool) (s : Sock) (g : Guest UInt8) : Prop where
  isOpen : s.isOpen = isOpen
  sent : s.sent = g.taken ++ s.reader.bytes
  writer : s.writer.bytes = g.greeting ++ g.got

/-- The connections: all closed but for the last one when a client is there. -/
inductive Connections : Option Nat → List Sock → List (Guest UInt8) → Option (Guest UInt8) → Prop
  | nobody {socks : List Sock} {past : List (Guest UInt8)} :
      List.Forall₂ (ClientRel false) socks past → Connections none socks past none
  | client {socks : List Sock} {past : List (Guest UInt8)} {s : Sock} {g : Guest UInt8} :
      List.Forall₂ (ClientRel false) socks past → ClientRel true s g →
      Connections (some socks.length) (socks ++ [s]) past (some g)

/-- The data and the relay between two rounds. -/
structure Refines (d : Proxy) (a : Relay UInt8) : Prop where
  sent : d.console.sent = a.output ++ d.console.reader.bytes
  input : d.console.writer.bytes = a.input
  console : d.console.isOpen = d.running
  srv : d.srvOpen = d.running
  stopped : d.running = false → d.clientSocket = none
  buffer : Holds a.last d.mBuff
  connections : Connections d.clientSocket d.clients a.past a.current

theorem refines_init : Refines .init .init :=
  ⟨rfl, rfl, rfl, rfl, fun _ => rfl, holds_init, .nobody .nil⟩

section Parts

variable {d : Proxy} {a : Relay UInt8}

theorem Refines.sock_console (h : Refines d a) (hrun : d.running = true) :
    d.sock .console = .ok d.console := by
  simp [Proxy.sock, h.console, hrun]

/-- While a client is there its socket is the last one, and open. -/
theorem Refines.client (h : Refines d a) {c : Nat} (hc : d.clientSocket = some c) :
    d.running = true ∧ ∃ socks s g, c = socks.length ∧ d.clients = socks ++ [s] ∧
      List.Forall₂ (ClientRel false) socks a.past ∧ ClientRel true s g ∧ a.current = some g ∧
      d.sock (.client c) = .ok s := by
  obtain ⟨clientSocket, flag, mBuff, console, clients, srvOpen, running⟩ := d
  obtain ⟨output, input, past, current, last⟩ := a
  have hconn := h.connections
  simp only at hconn hc
  subst hc
  refine ⟨?_, ?_⟩
  · by_contra hstop
    have := h.stopped (by simpa using hstop)
    cases this
  · cases hconn with
    | client hpast hs =>
      rename_i socks s g
      exact ⟨socks, s, g, rfl, rfl, hpast, hs, rfl, by simp [Proxy.sock, hs.isOpen]⟩

theorem Refines.nobody (h : Refines d a) (hc : d.clientSocket = none) :
    a.current = none ∧ List.Forall₂ (ClientRel false) d.clients a.past := by
  have hconn := h.connections
  rw [hc] at hconn
  generalize hcur : a.current = cur at hconn
  cases hconn with
  | nobody hpast => exact ⟨rfl, hpast⟩

theorem isOpen_of_past {socks : List Sock} {past : List (Guest UInt8)}
    (h : List.Forall₂ (ClientRel false) socks past) : ∀ s ∈ socks, s.isOpen = false := by
  induction h with
  | nil => simp
  | cons hs _ ih => simpa using ⟨hs.isOpen, ih⟩

/-- Only the socket of the client that is there is open. -/
theorem Refines.clientSocket_of_sock (h : Refines d a) {c : Nat} {s : Sock}
    (hsock : d.sock (.client c) = .ok s) : d.clientSocket = some c := by
  have hopen := isOpen_of_sock hsock
  have hget : d.clients[c]? = some s := by
    simp only [Proxy.sock] at hsock
    split at hsock
    · split at hsock
      · cases hsock
        assumption
      · cases hsock
    · cases hsock
  cases hc : d.clientSocket with
  | none =>
    have hclosed := isOpen_of_past (h.nobody hc).2 s (List.mem_of_getElem? hget)
    rw [hopen] at hclosed
    cases hclosed
  | some c' =>
    obtain ⟨-, socks, s', g, rfl, hclients, hpast, -, -, -⟩ := h.client hc
    rw [hclients] at hget
    rcases Nat.lt_trichotomy c socks.length with hlt | heq | hgt
    · rw [List.getElem?_append_left hlt] at hget
      have hclosed := isOpen_of_past hpast s (List.mem_of_getElem? hget)
      rw [hopen] at hclosed
      cases hclosed
    · rw [heq]
    · have hnone : (socks ++ [s'])[c]? = none := by
        apply List.getElem?_eq_none
        rw [List.length_append, List.length_singleton]
        omega
      rw [hnone] at hget
      cases hget

/-- The console changes. -/
theorem Refines.setConsole (h : Refines d a) {s : Sock} (output input last : List UInt8)
    {b : List UInt8} (hsent : s.sent = output ++ s.reader.bytes) (hinput : s.writer.bytes = input)
    (hopen : s.isOpen = d.console.isOpen) (hb : Holds last b) :
    Refines { d.setSock s .console with mBuff := b } { a with output, input, last } :=
  ⟨hsent, hinput, hopen.trans h.console, h.srv, h.stopped, hb, h.connections⟩

/-- A read of the console that has taken nothing. -/
theorem Refines.setReader (h : Refines d a) {reader : Peer}
    (hreader : reader.bytes = d.console.reader.bytes) :
    Refines (d.setSock { d.console with reader } .console) a := by
  refine ⟨?_, h.input, h.console, h.srv, h.stopped, h.buffer, h.connections⟩
  change d.console.sent = a.output ++ reader.bytes
  rw [hreader, h.sent]

/-- The socket of the client that is there changes. -/
theorem Refines.setClient (h : Refines d a) {c : Nat} (hc : d.clientSocket = some c) {s : Sock}
    {g : Guest UInt8} (hs : ClientRel true s g) :
    Refines (d.setSock s (.client c)) { a with current := some g } := by
  obtain ⟨-, socks, s₀, g₀, rfl, hclients, hpast, -, -, -⟩ := h.client hc
  refine ⟨h.sent, h.input, h.console, h.srv, h.stopped, h.buffer, ?_⟩
  have hset : d.clients.set socks.length s = socks ++ [s] := by simp [hclients]
  change Connections d.clientSocket (d.clients.set socks.length s) a.past (some g)
  rw [hset, hc]
  exact .client hpast hs

/-- The client leaves. -/
theorem Refines.closeSocket (h : Refines d a) {c : Nat} (hc : d.clientSocket = some c)
    {g : Guest UInt8} (hg : a.current = some g) :
    ∃ d', closeSocket c d = .ok d' ∧ d'.clientSocket = none ∧
      Refines d' { a with current := none, past := a.past ++ [g] } := by
  obtain ⟨-, socks, s, g', rfl, hclients, hpast, hs, hg', hsock⟩ := h.client hc
  obtain rfl : g' = g := Option.some.inj (hg'.symm.trans hg)
  refine ⟨{ d.setSock { s with isOpen := false } (.client socks.length) with clientSocket := none },
    ?_, rfl, h.sent, h.input, h.console, h.srv, fun _ => rfl, h.buffer, ?_⟩
  · rw [Console.closeSocket, close_of_sock hsock]
    rfl
  · have hset : d.clients.set socks.length { s with isOpen := false } =
        socks ++ [{ s with isOpen := false }] := by simp [hclients]
    change Connections none (d.clients.set socks.length { s with isOpen := false })
      (a.past ++ [g']) none
    rw [hset]
    exact .nobody (List.rel_append hpast (.cons ⟨rfl, hs.sent, hs.writer⟩ .nil))

/-- The end of a copy: the client stays or its socket is closed. -/
theorem Refines.after (stays : Prop) [Decidable stays] {g : Guest UInt8}
    (h : Refines d { a with current := some g }) {c : Nat} (hc : d.clientSocket = some c) :
    ∃ d', (if decide stays = true then pure d else Console.closeSocket c d) = .ok d' ∧
      (d'.clientSocket = some c ∨ d'.clientSocket = none) ∧ Refines d' (a.after g stays) := by
  unfold Relay.after
  by_cases hstays : stays
  · rw [if_pos (by simpa using hstays), if_pos hstays]
    exact ⟨d, rfl, .inl hc, h⟩
  · rw [if_neg (by simpa using hstays), if_neg hstays]
    obtain ⟨d', hrun, hnone, h'⟩ := h.closeSocket hc rfl
    exact ⟨d', hrun, .inr hnone, h'⟩

end Parts

/-! ## The rounds -/

section Rounds

variable {d : Proxy} {a : Relay UInt8}

/-- Output of the service is passed on to the client. -/
theorem Refines.relayOutput (h : Refines d a) {c : Nat} (hc : d.clientSocket = some c)
    (ready : Bool) :
    ∃ d' a', relay ready .console (.client c) c d = .ok d' ∧
      (d'.clientSocket = some c ∨ d'.clientSocket = none) ∧ Relay.Continues greet a a' ∧
      Refines d' a' := by
  unfold relay
  by_cases hready : (ready && d.clientSocket.isSome) = true
  · rw [if_pos hready]
    obtain ⟨hrun, socks, s, g, hlen, hclients, hpast, hs, hg, hsock⟩ := h.client hc
    have hne : Fd.client c ≠ .console := by simp
    rcases copyToFd_spec (h.sock_console hrun) hsock hne h.buffer with
      ⟨reader, hreader, hcopy⟩ | ⟨bs, n, reader, writer, b, hbytes, hn, hwriter, hholds, hcopy⟩
    · rw [hcopy, exec_bind_ok]
      obtain ⟨d', hclose, hnone, h'⟩ := (h.setReader hreader).closeSocket hc hg
      exact ⟨d', _, hclose, .inr hnone, .close hg, h'⟩
    · rw [hcopy, exec_bind_ok]
      have h₁ : Refines { d.setSock { d.console with reader } .console with mBuff := b }
          { a with output := a.output ++ bs, last := bs } :=
        h.setConsole _ _ _ (by rw [List.append_assoc, ← hbytes]; exact h.sent) h.input rfl hholds
      have h₂ := h₁.setClient (c := c) (s := { s with writer })
        (g := { g with got := g.got ++ bs.take n }) hc
        ⟨hs.isOpen, hs.sent, by rw [hwriter, hs.writer, List.append_assoc]⟩
      obtain ⟨d', hend, hstate, h'⟩ := Refines.after (n = bs.length)
        (a := { a with output := a.output ++ bs, last := bs }) h₂ hc
      exact ⟨d', _, hend, hstate, .output hg hn, h'⟩
  · rw [if_neg hready]
    exact ⟨d, a, rfl, .inl hc, .refl a, h⟩

/-- Input from the client is passed on to the service, if it is still there. -/
theorem Refines.relayInput (h : Refines d a) {c : Nat}
    (hc : d.clientSocket = some c ∨ d.clientSocket = none) (ready : Bool) :
    ∃ d' a', relay ready (.client c) .console c d = .ok d' ∧ Relay.Continues greet a a' ∧
      Refines d' a' := by
  unfold relay
  by_cases hready : (ready && d.clientSocket.isSome) = true
  · rw [if_pos hready]
    have hc : d.clientSocket = some c := by
      rcases hc with hc | hc
      · exact hc
      · rw [hc] at hready
        simp at hready
    obtain ⟨hrun, socks, s, g, hlen, hclients, hpast, hs, hg, hsock⟩ := h.client hc
    have hne : Fd.console ≠ .client c := by simp
    rcases copyToFd_spec hsock (h.sock_console hrun) hne h.buffer with
      ⟨reader, hreader, hcopy⟩ | ⟨bs, n, reader, writer, b, hbytes, hn, hwriter, hholds, hcopy⟩
    · rw [hcopy, exec_bind_ok]
      have h₁ := h.setClient (s := { s with reader }) hc ⟨hs.isOpen, by rw [hreader]; exact hs.sent,
        hs.writer⟩
      obtain ⟨d', hclose, -, h'⟩ := h₁.closeSocket hc rfl
      exact ⟨d', _, hclose, .close hg, h'⟩
    · rw [hcopy, exec_bind_ok]
      have h₁ := h.setClient (s := { s with reader })
        (g := { g with taken := g.taken ++ bs, passed := g.passed ++ bs.take n }) hc
        ⟨hs.isOpen, by rw [List.append_assoc, ← hbytes]; exact hs.sent, hs.writer⟩
      have h₂ := h₁.setConsole (s := { d.console with writer }) (b := b) a.output
        (a.input ++ bs.take n) bs h.sent (by rw [hwriter, h.input]) rfl hholds
      obtain ⟨d', hend, -, h'⟩ := Refines.after (n = bs.length)
        (a := { a with input := a.input ++ bs.take n, last := bs }) h₂ hc
      exact ⟨d', _, hend, .input hg hn, h'⟩
  · rw [if_neg hready]
    exact ⟨d, a, rfl, .refl a, h⟩

theorem Refines.relayRound (h : Refines d a) {c : Nat} (hc : d.clientSocket = some c)
    (selects : List SelectAnswer) :
    ∃ d' a', relayRound selects c d = .ok d' ∧ Relay.Continues greet a a' ∧ Refines d' a' := by
  obtain ⟨-, socks, s, g, -, -, -, -, hg, -⟩ := h.client hc
  have hclose : ∃ d' a', Console.closeSocket c d = .ok d' ∧ Relay.Continues greet a a' ∧
      Refines d' a' := by
    obtain ⟨d', hclose, -, h'⟩ := h.closeSocket hc hg
    exact ⟨d', _, hclose, .close hg, h'⟩
  unfold Console.relayRound
  by_cases hflag : d.clientFlagForClose = true
  · rw [if_pos hflag]
    exact hclose
  · rw [if_neg hflag]
    cases stdSelectIgnoreIntr 100 selects with
    | interrupted => exact hclose
    | failed => exact hclose
    | ready client console =>
      obtain ⟨d₁, a₁, hrun₁, hstate, hsteps₁, h₁⟩ := h.relayOutput hc console
      obtain ⟨d₂, a₂, hrun₂, hsteps₂, h₂⟩ := h₁.relayInput hstate client
      refine ⟨d₂, a₂, ?_, hsteps₁.trans hsteps₂, h₂⟩
      dsimp only
      rw [hrun₁, exec_bind_ok, hrun₂]

/-- While no client is there the output of the service is thrown away. -/
theorem Refines.flush (h : Refines d a) (hrun : d.running = true) (hc : d.clientSocket = none)
    (ready : Bool) :
    ∃ d' a', flushConsoleFd ready d = .ok d' ∧ d'.running = true ∧ d'.clientSocket = none ∧
      Relay.Continues greet a a' ∧ Refines d' a' := by
  unfold flushConsoleFd
  cases ready with
  | false => exact ⟨d, a, rfl, hrun, hc, .refl a, h⟩
  | true =>
    rw [if_pos rfl]
    rcases copyToFd_read (h.sock_console hrun) h.buffer none with
      ⟨reader, hreader, hcopy⟩ | ⟨bs, reader, b, -, hbytes, hholds, -, hcopy⟩
    · refine ⟨d.setSock { d.console with reader } .console, a, ?_, hrun, hc, .refl a, ?_⟩
      · rw [hcopy, exec_bind_ok]
        rfl
      · exact h.setReader hreader
    · refine ⟨{ d.setSock { d.console with reader } .console with mBuff := b }, _, ?_, hrun, hc,
        .flush bs (h.nobody hc).1, ?_⟩
      · rw [hcopy, exec_bind_ok]
        rfl
      · exact h.setConsole _ _ _ (by rw [List.append_assoc, ← hbytes]; exact h.sent) h.input rfl
          hholds

/-- A new client is greeted with the string in the buffer, or with a part of it. -/
theorem Refines.greeting (h : Refines d a) :
    ∃ len rc writer, strlen d.mBuff = .ok len ∧
      stdWrite Sock.new.writer d.mBuff len = .ok (rc, writer) ∧
      writer.bytes <+: greet a.last ∧ (rc ≠ -1 → writer.bytes = greet a.last) := by
  obtain ⟨len, hlen, hlt, htake⟩ := h.buffer.strlen
  have hb := h.buffer.1
  obtain ⟨rc, n, writer, hwrite, hn, hbytes, hrc⟩ := stdWrite_spec Sock.new.writer
    (show len ≤ d.mBuff.length by omega) (show len < 2 ^ 31 by unfold DEF_BUF_LEN at hlt; omega)
  have hgreet : writer.bytes = (greet a.last).take n := by
    rw [hbytes, greet, ← htake, List.take_take, Nat.min_eq_left hn]
    rfl
  refine ⟨len, rc, writer, hlen, hwrite, ?_, fun hne => ?_⟩
  · rw [hgreet]
    exact List.take_prefix _ _
  · obtain rfl : n = len := (hrc.resolve_left hne).2
    rw [hgreet, greet, ← htake, List.take_take, Nat.min_self]

/-- What a round of `wait_for_connection` leaves behind. -/
def AfterWait (d : Proxy) (a : Relay UInt8) : Waited → Prop
  | .goesOn => Refines d a
  | .client c => Refines { d with clientSocket := some c, clientFlagForClose := false } a
  | .failed => Refines d a ∧ d.running = true ∧ d.clientSocket = none

/-- A client that connects stays, or is let go when the greeting fails. -/
theorem Refines.greetClient (h : Refines d a) (hrun : d.running = true)
    (hc : d.clientSocket = none) :
    ∃ waited d' a', Console.greetClient d.clients.length
        { d with clients := d.clients ++ [.new] } = .ok (waited, d') ∧
      Relay.Passes greet a a' ∧ AfterWait d' a' waited := by
  obtain ⟨hnone, hpast⟩ := h.nobody hc
  obtain ⟨len, rc, writer, hlen, hwrite, hprefix, hall⟩ := h.greeting
  have hsock (s : Sock) (hs : s.isOpen = true) :
      ({ d with clients := d.clients ++ [s] } : Proxy).sock (.client d.clients.length) = .ok s := by
    simp [Proxy.sock, hs]
  have hset (s s' : Sock) : (d.clients ++ [s]).set d.clients.length s' = d.clients ++ [s'] := by
    simp
  unfold Console.greetClient
  rw [hlen, exec_bind_ok, hsock .new rfl, exec_bind_ok]
  dsimp only
  rw [hwrite, exec_bind_ok]
  dsimp only [Proxy.setSock]
  rw [hset]
  by_cases hrc : rc = -1
  · refine ⟨.goesOn, { d with clients := d.clients ++ [{ Sock.new with writer, isOpen := false }] },
      _, ?_, .refuse hnone hprefix, ?_⟩
    · rw [if_pos hrc, close_of_sock (hsock { Sock.new with writer } rfl)]
      dsimp only [Proxy.setSock]
      rw [hset]
      rfl
    · refine ⟨h.sent, h.input, h.console, h.srv, fun _ => hc, h.buffer, ?_⟩
      change Connections d.clientSocket _ _ a.current
      rw [hc, hnone]
      refine .nobody (List.rel_append hpast (.cons ⟨rfl, rfl, ?_⟩ .nil))
      exact (List.append_nil _).symm
  · refine ⟨.client d.clients.length, { d with clients := d.clients ++ [{ Sock.new with writer }] },
      _, ?_, .connect hnone, ?_⟩
    · rw [if_neg hrc]
      rfl
    · refine ⟨h.sent, h.input, h.console, h.srv, ?_, h.buffer, ?_⟩
      · intro hstop
        change d.running = false at hstop
        rw [hrun] at hstop
        cases hstop
      · refine .client hpast ⟨rfl, rfl, ?_⟩
        change writer.bytes = greet a.last ++ []
        rw [hall hrc, List.append_nil]

theorem Refines.waitForConnection (h : Refines d a) (hrun : d.running = true)
    (hc : d.clientSocket = none) (selects : List SelectAnswer) (accept : AcceptAnswer) :
    ∃ waited d' a', Console.waitForConnection selects accept d = .ok (waited, d') ∧
      Relay.Passes greet a a' ∧ AfterWait d' a' waited := by
  unfold Console.waitForConnection
  split
  · exact ⟨_, d, a, rfl, (Relay.Continues.refl a).passes, h⟩
  · exact ⟨_, d, a, rfl, (Relay.Continues.refl a).passes, h, hrun, hc⟩
  · exact ⟨_, d, a, rfl, (Relay.Continues.refl a).passes, h⟩
  · rename_i server console _ _
    obtain ⟨d₁, a₁, hflush, hrun₁, hc₁, hsteps₁, h₁⟩ := h.flush hrun hc console
    rw [hflush, exec_bind_ok]
    unfold handleServerSocket
    cases server with
    | false => exact ⟨_, d₁, a₁, rfl, hsteps₁.passes, h₁⟩
    | true =>
      cases accept with
      | again => exact ⟨_, d₁, a₁, rfl, hsteps₁.passes, h₁⟩
      | fail => exact ⟨_, d₁, a₁, rfl, hsteps₁.passes, h₁, hrun₁, hc₁⟩
      | connection =>
        obtain ⟨waited, d₂, a₂, hgreet, hsteps₂, h₂⟩ := h₁.greetClient hrun₁ hc₁
        exact ⟨waited, d₂, a₂, hgreet, hsteps₁.trans_passes hsteps₂, h₂⟩

/-- A round of the thread. -/
theorem Refines.consoleReader (h : Refines d a) (hrun : d.running = true)
    (selects : List SelectAnswer) (accept : AcceptAnswer) :
    ∃ d' a', Console.consoleReader selects accept d = .ok d' ∧ Relay.Passes greet a a' ∧
      Refines d' a' := by
  unfold Console.consoleReader
  cases hc : d.clientSocket with
  | some c =>
    obtain ⟨d', a', hround, hsteps, h'⟩ := h.relayRound hc selects
    exact ⟨d', a', hround, hsteps.passes, h'⟩
  | none =>
    obtain ⟨waited, d₁, a₁, hwait, hsteps, h₁⟩ := h.waitForConnection hrun hc selects accept
    dsimp only
    rw [hwait, exec_bind_ok]
    cases waited with
    | goesOn => exact ⟨_, a₁, rfl, hsteps, h₁⟩
    | client c => exact ⟨_, a₁, rfl, hsteps, h₁⟩
    | failed =>
      obtain ⟨h₁, hrun₁, hc₁⟩ := h₁
      refine ⟨{ d₁ with
          console := { d₁.console with isOpen := false }
          srvOpen := false
          running := false }, a₁, ?_, hsteps, ?_⟩
      · dsimp only
        rw [close_of_sock (h₁.sock_console hrun₁)]
        rfl
      · exact ⟨h₁.sent, h₁.input, rfl, rfl, fun _ => hc₁, h₁.buffer, h₁.connections⟩

/-- What the other sides do, at the console or at the socket of the client. -/
theorem Refines.onSock (h : Refines d a) (fd : Fd) {f : Sock → Sock}
    (hopen : ∀ s, (f s).isOpen = s.isOpen) (hwriter : ∀ s, (f s).writer.bytes = s.writer.bytes)
    (hsent : ∀ s bs, s.sent = bs ++ s.reader.bytes → (f s).sent = bs ++ (f s).reader.bytes) :
    Refines (d.onSock fd f) a := by
  unfold Proxy.onSock
  cases hsock : d.sock fd with
  | error e => exact h
  | ok s =>
    cases fd with
    | console =>
      obtain rfl : d.console = s := by
        simp only [Proxy.sock] at hsock
        split at hsock
        · exact Except.ok.inj hsock
        · cases hsock
      exact ⟨hsent _ _ h.sent, (hwriter _).trans h.input, (hopen _).trans h.console, h.srv,
        h.stopped, h.buffer, h.connections⟩
    | client c =>
      have hc := h.clientSocket_of_sock hsock
      obtain ⟨-, socks, s', g, -, -, -, hs, hg, hsock'⟩ := h.client hc
      obtain rfl : s' = s := Except.ok.inj (hsock'.symm.trans hsock)
      have h' := h.setClient (s := f s') hc
        ⟨(hopen _).trans hs.isOpen, hsent _ _ hs.sent, (hwriter _).trans hs.writer⟩
      rwa [← hg] at h'

/-- A step of the system: it does not go wrong, and the relay can follow it. -/
theorem Refines.step (h : Refines d a) {l : Label} (hl : l = .termConn → d.running = true) :
    ∃ d' a', d.step l = .ok d' ∧ Relay.Passes greet a a' ∧ Refines d' a' := by
  cases l with
  | round selects accept =>
    have hstep : d.step (.round selects accept) =
        if d.running then Console.consoleReader selects accept d else pure d := rfl
    rw [hstep]
    by_cases hrun : d.running = true
    · rw [if_pos hrun]
      exact h.consoleReader hrun selects accept
    · rw [if_neg hrun]
      exact ⟨d, a, rfl, (Relay.Continues.refl a).passes, h⟩
  | send fd bs =>
    refine ⟨_, a, rfl, (Relay.Continues.refl a).passes, h.onSock fd (fun _ => rfl) (fun _ => rfl) fun s before hs => ?_⟩
    change s.sent ++ bs = before ++ (s.reader.bytes ++ bs)
    rw [hs, List.append_assoc]
  | answerReads fd answers =>
    exact ⟨_, a, rfl, (Relay.Continues.refl a).passes, h.onSock fd (fun _ => rfl) (fun _ => rfl) fun _ _ hs => hs⟩
  | answerWrites fd answers =>
    exact ⟨_, a, rfl, (Relay.Continues.refl a).passes, h.onSock fd (fun _ => rfl) (fun _ => rfl) fun _ _ hs => hs⟩
  | termConn =>
    have hstep : d.step .termConn = if d.running then pure { d with clientFlagForClose := true }
        else .error (.badPointer 0) := rfl
    rw [hstep, if_pos (hl rfl)]
    exact ⟨_, a, rfl, (Relay.Continues.refl a).passes, h.sent, h.input, h.console, h.srv, h.stopped, h.buffer, h.connections⟩

end Rounds

/-! ## The runs -/

/-- A step that does not go wrong. -/
def Proxy.next (l : Label) (d : Proxy) : Option Proxy := (d.step l).toOption

/-- `std_cmd_redir_term_conn` is not called any more when the thread has returned. -/
def Label.Allowed (d : Proxy) (l : Label) : Prop := l = .termConn → d.running = true

instance (d : Proxy) (l : Label) : Decidable (l.Allowed d) :=
  inferInstanceAs (Decidable (_ → _))

/-- The states of all runs. -/
abbrev Reachable (d : Proxy) : Prop := Reached Proxy.next (fun d l => l.Allowed d) .init d

theorem Reachable.refines {d : Proxy} (h : Reachable d) :
    ∃ a, Relay.Leads greet .init a ∧ Refines d a := by
  apply h.invariant ⟨.init, .refl, refines_init⟩
  rintro d d' l ⟨a, hleads, href⟩ hl hnext
  obtain ⟨d₁, a', hstep, hleads', href'⟩ := href.step hl
  rw [Proxy.next, hstep] at hnext
  obtain rfl : d₁ = d' := Option.some.inj hnext
  exact ⟨a', hleads.trans hleads'.leads, href'⟩

/-- The console proxy is a relay, and no step of it goes wrong, in any order of what the service,
the clients, the kernel and the thread do. -/
theorem console_relays (d : Proxy) (h : Reachable d) :
    (∃ a, Relay.Leads greet .init a ∧ Refines d a) ∧
      ∀ l : Label, l.Allowed d → ∃ d', d.step l = .ok d' := by
  obtain ⟨a, hleads, href⟩ := h.refines
  refine ⟨⟨a, hleads, href⟩, fun l hl => ?_⟩
  obtain ⟨d', -, hstep, -⟩ := href.step hl
  exact ⟨d', hstep⟩

/-- The step that brought the client `c`: how much of the output of the service had been read by then,
and the string that was in the buffer. -/
def Met (d : Proxy) (c : Nat) (arrival : Nat × List UInt8) : Prop :=
  ∃ d₁ d₂ l, Reachable d₁ ∧ l.Allowed d₁ ∧ d₁.next l = some d₂ ∧
    Reached Proxy.next (fun d l => l.Allowed d) d₂ d ∧
    d₁.clients.length = c ∧ d₂.clients.length = c + 1 ∧
    arrival.1 = d₂.console.sent.length - d₂.console.reader.bytes.length ∧
    arrival.2 = d₂.mBuff.takeWhile (· ≠ 0)

theorem Met.step {d d' : Proxy} {c : Nat} {arrival : Nat × List UInt8} {l : Label}
    (h : Met d c arrival) (hl : l.Allowed d) (hnext : d.next l = some d') : Met d' c arrival := by
  obtain ⟨d₁, d₂, l₁, hd₁, hl₁, hnext₁, hrun, hrest⟩ := h
  exact ⟨d₁, d₂, l₁, hd₁, hl₁, hnext₁, .step hrun hl hnext, hrest⟩

/-- There are as many sockets as clients of the relay. -/
theorem Connections.length_eq {clientSocket : Option Nat} {socks : List Sock}
    {past : List (Guest UInt8)} {current : Option (Guest UInt8)}
    (h : Connections clientSocket socks past current) :
    socks.length = (past ++ current.toList).length := by
  cases h with
  | nobody hpast => simp [hpast.length_eq]
  | client hpast _ => simp [hpast.length_eq]

/-- The service says `ok` before a client is there and `go` to the client, which is greeted with the
first and answers `a`. -/
def sampleRun : List Label :=
  [.send .console [111, 107], .round [.ready false true] .again,
    .round [.eintr, .ready true false] .connection, .send .console [103, 111],
    .send (.client 0) [97], .round [.ready true true] .again, .termConn, .round [] .again]

/-- The state after it. -/
def sampleState : Proxy :=
  { Proxy.init with
    clientFlagForClose := true
    mBuff := 97 :: 0 :: 0 :: List.replicate 125 0
    console := ⟨[111, 107, 103, 111], ⟨[], []⟩, ⟨[97], []⟩, true⟩
    clients := [⟨[97], ⟨[], []⟩, ⟨[111, 107, 103, 111], []⟩, false⟩] }

theorem sampleState_reachable : Reachable sampleState :=
  Reached.runSteps_of_allMeet (fun d l => l.Allowed d) sampleRun .init (by decide +kernel)
    (by decide +kernel)

theorem console_relays_sample :
    (∃ a, Relay.Leads greet .init a ∧ Refines sampleState a) ∧
      ∀ l : Label, l.Allowed sampleState → ∃ d', sampleState.step l = .ok d' :=
  console_relays sampleState sampleState_reachable

end OpxCommonUtils.Console
