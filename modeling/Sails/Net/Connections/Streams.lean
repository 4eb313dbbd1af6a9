import Sails.Net.Connections

/-!
# Output streams

What the log says about one connection's output: the send commands addressed to it that were
accepted and taken while it was listed, and the bytes handed to the kernel.

- `stream`: the account of a connection, read off the log
- `Ordered`, `StreamOk`: how the account and the state agree
- `StreamOk.step`: every step keeps the agreement, if no buffer has 2^31 bytes
- `FlushedBy`: what a close command may rely on
-/

namespace Sails.Net

open CMemory

/-- The account of one connection. -/
structure Stream where
  /-- what the connection is addressed by, while it is listed -/
  who : Option Ident
  /-- the send commands for it accepted while it was listed, with their numbers -/
  accepted : List (Nat × SendData)
  /-- the send commands for it taken while it was listed -/
  taken : List (Nat × SendData)
  /-- the bytes handed to the kernel -/
  handed : Bytes

namespace Stream

def empty : Stream := ⟨none, [], [], []⟩

/-- The buffers of the commands taken, in order. -/
def sent (st : Stream) : Bytes := st.taken.flatMap fun x => x.2.buffer

/-- The command is a send command for the connection. -/
def Wants (st : Stream) (d : SendData) : Prop := d.cmd = .send ∧ st.who = some d.ident

instance (st : Stream) (d : SendData) : Decidable (st.Wants d) :=
  inferInstanceAs (Decidable (_ ∧ _))

/-- What an event adds to the account of connection `a`. -/
def next (a : ConnectorPtr) (st : Stream) : NetEvent → Stream
  | .added b uid ip port => if b = a then { st with who := some ⟨uid, ip, port⟩ } else st
  | .removed b => if b = a then { st with who := none } else st
  | .accepted k d => if st.Wants d then { st with accepted := st.accepted ++ [(k, d)] } else st
  | .took k d => if st.Wants d then { st with taken := st.taken ++ [(k, d)] } else st
  | .output b bytes => if b = a then { st with handed := st.handed ++ bytes.getD [] } else st
  | .read _ | .parsed _ | .closedCB .. | .eventStop .. | .closeFd .. => st

end Stream

/-- The account of connection `a` after the events of a log. -/
def stream (a : ConnectorPtr) (log : List NetEvent) : Stream := log.foldl (Stream.next a) .empty

theorem stream_append (a : ConnectorPtr) (log events : List NetEvent) :
    stream a (log ++ events) = events.foldl (Stream.next a) (stream a log) :=
  List.foldl_append

namespace Stream

variable {st : Stream} {a : ConnectorPtr} {k : Nat} {d : SendData}

theorem sent_taken (h : st.Wants d) :
    (st.next a (.took k d)).sent = st.sent ++ d.buffer := by
  simp [next, h, sent]

theorem next_took_of_not (h : ¬ st.Wants d) : st.next a (.took k d) = st := if_neg h

theorem next_accepted_of_not (h : ¬ st.Wants d) : st.next a (.accepted k d) = st := if_neg h

/-- Taking a command changes neither the address nor what was handed out, and only adds. -/
theorem next_took_spec (st : Stream) (a : ConnectorPtr) (k : Nat) (d : SendData) :
    (st.next a (.took k d)).who = st.who ∧ (st.next a (.took k d)).handed = st.handed ∧
    (st.next a (.took k d)).accepted = st.accepted ∧
    st.sent <+: (st.next a (.took k d)).sent ∧ st.taken ⊆ (st.next a (.took k d)).taken := by
  by_cases h : st.Wants d
  · refine ⟨by simp [next, h], by simp [next, h], by simp [next, h], ?_, by simp [next, h]⟩
    rw [sent_taken h]
    exact List.prefix_append _ _
  · rw [next_took_of_not h]
    exact ⟨rfl, rfl, rfl, List.prefix_refl _, List.Subset.refl _⟩

/-- Events that are not about the output of any connection. -/
theorem next_input {events : List NetEvent} {b : ConnectorPtr}
    (h : ∀ e ∈ events, e = .read b ∨ e = .parsed b) : events.foldl (next a) st = st := by
  induction events with
  | nil => rfl
  | cons e events ih =>
    have hrest := ih fun e' he' => h e' (List.mem_cons_of_mem _ he')
    rcases h e (List.mem_cons_self ..) with rfl | rfl
    · exact hrest
    · exact hrest

end Stream

/-! ## The table and the queue -/

namespace Connections

variable {c c' : Connections} {events : List NetEvent} {a : ConnectorPtr} {st : Stream}

/-- Listed connections have different ids, the one being added is not listed, and the
commands wait in the order of their numbers. -/
structure Ordered (c : Connections) : Prop where
  known : ∀ a, c.listed a = true → ∃ p, c.peer a = some p
  unique : ∀ a b p q, c.listed a = true → c.listed b = true → c.peer a = some p →
    c.peer b = some q → p.ident.uid = q.ident.uid → a = b
  numbered : ∀ a, c.adding = .numbered a →
    c.listed a = false ∧ ∃ p, c.peer a = some p ∧ p.outgoing = []
  serials : c.pending.Pairwise fun x y => x.1 < y.1
  serials_lt : ∀ x ∈ c.pending, x.1 < c.acceptedNum

/-- Taking the first command off the queue. -/
theorem Ordered.tail (h : Ordered c) {k : Nat} {d : SendData} {rest : List (Nat × SendData)}
    (hpending : c.pending = (k, d) :: rest) : Ordered { c with pending := rest } := by
  have hserials := h.serials
  have hlt := h.serials_lt
  rw [hpending] at hserials hlt
  exact { h with
    serials := hserials.of_cons
    serials_lt := fun x hx => hlt x (List.mem_cons_of_mem _ hx) }

/-- Changing what is not the address of a connection. -/
theorem Ordered.setPeer (h : Ordered c) {p q : Peer} (hpeer : c.peer a = some p)
    (hident : q.ident = p.ident) (hout : c.listed a = true ∨ q.outgoing = p.outgoing) :
    Ordered (c.setPeer a q) where
  known := by
    intro b hb
    by_cases hba : b = a
    · exact ⟨q, if_pos hba⟩
    · obtain ⟨r, hr⟩ := h.known b hb
      exact ⟨r, (if_neg hba).trans hr⟩
  unique := by
    -- both addresses are those of the connections before
    have hold : ∀ b r, (c.setPeer a q).peer b = some r →
        ∃ r', c.peer b = some r' ∧ r'.ident = r.ident := by
      intro b r hr
      rw [setPeer_peer] at hr
      split at hr
      · rename_i hba
        cases hr
        exact ⟨p, hba ▸ hpeer, hident.symm⟩
      · exact ⟨r, hr, rfl⟩
    intro b₁ b₂ r₁ r₂ hb₁ hb₂ hr₁ hr₂ huid
    obtain ⟨r₁', hr₁', h₁⟩ := hold b₁ r₁ hr₁
    obtain ⟨r₂', hr₂', h₂⟩ := hold b₂ r₂ hr₂
    exact h.unique b₁ b₂ r₁' r₂' hb₁ hb₂ hr₁' hr₂' (by rw [h₁, h₂, huid])
  numbered := by
    intro b hb
    obtain ⟨hnot, r, hr, hempty⟩ := h.numbered b hb
    refine ⟨hnot, ?_⟩
    rw [setPeer_peer]
    split
    · rename_i hba
      subst hba
      rcases hout with hlisted | hsame
      · rw [hnot] at hlisted
        cases hlisted
      · rw [hpeer] at hr
        cases hr
        exact ⟨q, rfl, hsame.trans hempty⟩
    · exact ⟨r, hr, hempty⟩
  serials := h.serials
  serials_lt := h.serials_lt

/-- Unlisting a connection. -/
theorem Ordered.unlist (h : Ordered c) (b : ConnectorPtr) : Ordered (c.setListed b false) := by
  have hsub : ∀ a, (c.setListed b false).listed a = true → c.listed a = true := by
    intro a ha
    rw [setListed_listed] at ha
    split at ha
    · cases ha
    · exact ha
  refine { h with
    known := fun a ha => h.known a (hsub a ha)
    unique := fun a₁ a₂ p q h₁ h₂ => h.unique a₁ a₂ p q (hsub _ h₁) (hsub _ h₂)
    numbered := ?_ }
  intro a ha
  obtain ⟨hnot, hpeer⟩ := h.numbered a ha
  refine ⟨?_, hpeer⟩
  rw [setListed_listed]
  split
  · rfl
  · exact hnot

/-- Listing the connection that was numbered, under an id no listed one has. -/
theorem Ordered.list (h : Ordered c) {p : Peer} (hpeer : c.peer a = some p)
    (hother : ∀ b q, c.listed b = true → c.peer b = some q → q.ident.uid ≠ p.ident.uid) :
    Ordered ({ c with adding := .added a }.setListed a true) where
  known := by
    intro b hb
    rw [setListed_listed] at hb
    split at hb
    · rename_i hba
      exact ⟨p, hba ▸ hpeer⟩
    · exact h.known b hb
  unique := by
    intro b₁ b₂ r₁ r₂ hb₁ hb₂ hr₁ hr₂ huid
    rw [setListed_listed] at hb₁ hb₂
    -- two listed connections with one id: neither can be the new one alone
    by_cases h₁ : b₁ = a
    · by_cases h₂ : b₂ = a
      · rw [h₁, h₂]
      · rw [if_neg h₂] at hb₂
        cases hr₁.symm.trans (h₁ ▸ hpeer)
        exact absurd huid.symm (hother b₂ r₂ hb₂ hr₂)
    · rw [if_neg h₁] at hb₁
      by_cases h₂ : b₂ = a
      · cases hr₂.symm.trans (h₂ ▸ hpeer)
        exact absurd huid (hother b₁ r₁ hb₁ hr₁)
      · rw [if_neg h₂] at hb₂
        exact h.unique b₁ b₂ r₁ r₂ hb₁ hb₂ hr₁ hr₂ huid
  numbered := fun b hb => nomatch hb
  serials := h.serials
  serials_lt := h.serials_lt

/-- A new connection that is not listed yet. -/
theorem Ordered.create (h : Ordered c) {p : Peer} (hpeer : c.peer a = none)
    (hnot : c.listed a = false) (hout : p.outgoing = []) :
    Ordered ({ c with adding := .numbered a }.setPeer a p) := by
  have hne : ∀ b, c.listed b = true → b ≠ a := by
    rintro b hb rfl
    rw [hnot] at hb
    cases hb
  refine { h with known := ?_, unique := ?_, numbered := ?_ }
  · intro b hb
    obtain ⟨q, hq⟩ := h.known b hb
    exact ⟨q, (if_neg (hne b hb)).trans hq⟩
  · intro b₁ b₂ r₁ r₂ hb₁ hb₂ hr₁ hr₂
    rw [setPeer_peer, if_neg (hne b₁ hb₁)] at hr₁
    rw [setPeer_peer, if_neg (hne b₂ hb₂)] at hr₂
    exact h.unique b₁ b₂ r₁ r₂ hb₁ hb₂ hr₁ hr₂
  · intro b hb
    cases hb
    exact ⟨hnot, p, if_pos rfl, hout⟩

/-- **Step**: the table and the queue stay in order. -/
theorem Ordered.step (h : Ordered c) (hstep : Step c events c') : Ordered c' := by
  -- one case for each step
  cases hstep with
  | idle => exact h
  | input hlisted hclosing hevents => exact h
  | @accepted d =>
    -- the new command has the largest number
    refine { h with serials := ?_, serials_lt := ?_ }
    · refine List.pairwise_append.mpr ⟨h.serials, List.pairwise_singleton _ _, ?_⟩
      intro x hx y hy
      rw [List.mem_singleton] at hy
      subst hy
      exact h.serials_lt x hx
    · intro x hx
      rcases List.mem_append.mp hx with hx | hx
      · exact Nat.lt_succ_of_lt (h.serials_lt x hx)
      · rw [List.mem_singleton] at hx
        subst hx
        exact Nat.lt_succ_self _
  | pass hpending hclosing hnot => exact h.tail hpending
  | output hpending hclosing hcmd hfor hbytes =>
    exact (h.tail hpending).setPeer hfor.2.1 rfl (.inl hfor.1)
  | called hpending hclosing hcmd hfor => exact { h.tail hpending with }
  | stopped hclosing hpeer => exact { h with }
  | @shut a p hclosing hpeer =>
    have h' : Ordered { c with closing := some (.del, a) } := { h with }
    exact h'.setPeer hpeer rfl (.inr rfl)
  | @removed a b hclosing hlisted hown =>
    have h' : Ordered { c with closing := some (.release, a) } := { h with }
    exact h'.unlist b
  | released hclosing => exact { h with }
  | numbered hadding hpeer hnot hout => exact h.create hpeer hnot hout
  | added hadding hpeer hother => exact h.list hpeer hother
  | registered hadding => exact { h with numbered := fun a ha => nomatch ha }
  | @refused a b p destroyed hadding hlisted hown hpeer =>
    have h' : Ordered { c with adding := .idle } := { h with numbered := fun a ha => nomatch ha }
    exact h'.unlist b

/-! ## The accounts -/

/-- The account of a listed connection: what was sent and not handed out is waiting, and what
was accepted and not taken is pending. -/
structure Account (p : Peer) (pending : List (Nat × SendData)) (st : Stream) : Prop where
  who : st.who = some p.ident
  buffered : st.sent = st.handed ++ p.outgoing
  queued : ∀ x ∈ st.accepted, st.Wants x.2 ∧ (x ∈ pending ∨ x ∈ st.taken)

/-- The account of a connection agrees with the state. -/
structure StreamOk (c : Connections) (a : ConnectorPtr) (st : Stream) : Prop where
  account : ∀ p, c.listed a = true → c.peer a = some p → Account p c.pending st
  inOrder : st.handed <+: st.sent
  fresh : c.peer a = none ∨ c.adding = .numbered a → st = .empty

/-- No send command with a buffer of 2^31 bytes or more is carried out. -/
def Small (events : List NetEvent) : Prop :=
  ∀ k d b bytes, .took k d ∈ events → .output b bytes ∈ events → d.buffer.length < 2 ^ 31

/-- What the account of a connection agrees with does not change. -/
theorem StreamOk.congr (h : StreamOk c a st) (hlisted : c'.listed a = true → c.listed a = true)
    (hpeer : ∀ p, c'.peer a = some p → ∃ q, c.peer a = some q ∧ q.ident = p.ident ∧
      q.outgoing = p.outgoing)
    (hpending : c'.pending = c.pending)
    (hfresh : c'.peer a = none ∨ c'.adding = .numbered a → st = .empty) : StreamOk c' a st where
  account := by
    intro p hl hp
    obtain ⟨q, hq, hident, hout⟩ := hpeer p hp
    have hacc := h.account q (hlisted hl) hq
    rw [hpending]
    exact ⟨hident ▸ hacc.who, hout ▸ hacc.buffered, hacc.queued⟩
  inOrder := h.inOrder
  fresh := hfresh

/-- A send command that the connection wants is accepted, or any other command. -/
theorem StreamOk.accept (h : StreamOk c a st) (n : Nat) (d : SendData) :
    StreamOk { c with pending := c.pending ++ [(n, d)], acceptedNum := n + 1 } a
      (st.next a (.accepted n d)) := by
  by_cases hwants : st.Wants d
  · have hst : st.next a (.accepted n d) = { st with accepted := st.accepted ++ [(n, d)] } :=
      if_pos hwants
    rw [hst]
    refine ⟨?_, h.inOrder, ?_⟩
    · intro p hl hp
      have hacc := h.account p hl hp
      refine ⟨hacc.who, hacc.buffered, ?_⟩
      intro x hx
      rcases List.mem_append.mp hx with hx | hx
      -- the commands that wait were accepted before, or now
      · obtain ⟨hwant, hin⟩ := hacc.queued x hx
        exact ⟨hwant, hin.imp_left fun hin => List.mem_append_left _ hin⟩
      · rw [List.mem_singleton] at hx
        subst hx
        exact ⟨hwants, .inl (List.mem_append_right _ (List.mem_singleton_self _))⟩
    · intro hfresh
      rw [h.fresh hfresh] at hwants
      cases hwants.2
  -- a command for another connection leaves the stream alone
  · rw [Stream.next_accepted_of_not hwants]
    refine ⟨?_, h.inOrder, h.fresh⟩
    intro p hl hp
    have hacc := h.account p hl hp
    refine ⟨hacc.who, hacc.buffered, ?_⟩
    intro x hx
    obtain ⟨hwant, hin⟩ := hacc.queued x hx
    exact ⟨hwant, hin.imp_left fun hin => List.mem_append_left _ hin⟩

/-- A command is taken that the connection does not want. -/
theorem StreamOk.skip (h : StreamOk c a st) {k : Nat} {d : SendData} {rest : List (Nat × SendData)}
    (hpending : c.pending = (k, d) :: rest) (hnot : ¬ st.Wants d) :
    StreamOk { c with pending := rest } a (st.next a (.took k d)) := by
  rw [Stream.next_took_of_not hnot]
  refine ⟨?_, h.inOrder, h.fresh⟩
  intro p hl hp
  have hacc := h.account p hl hp
  refine ⟨hacc.who, hacc.buffered, ?_⟩
  intro x hx
  obtain ⟨hwant, hin⟩ := hacc.queued x hx
  refine ⟨hwant, hin.imp_left ?_⟩
  intro hin
  rw [hpending] at hin
  rcases List.mem_cons.mp hin with rfl | hin
  · exact absurd hwant hnot
  · exact hin

/-- A command is taken that only a connection no longer listed could want. -/
theorem StreamOk.miss (h : StreamOk c a st) {k : Nat} {d : SendData} {rest : List (Nat × SendData)}
    (hpending : c.pending = (k, d) :: rest) (hunlisted : st.Wants d → c.listed a = false) :
    StreamOk { c with pending := rest } a (st.next a (.took k d)) := by
  by_cases hwants : st.Wants d
  · obtain ⟨hwho, hhanded, -, hsent, -⟩ := Stream.next_took_spec st a k d
    refine ⟨?_, ?_, ?_⟩
    · intro p hl
      rw [hunlisted hwants] at hl
      cases hl
    · rw [hhanded]
      exact h.inOrder.trans hsent
    · intro hfresh
      rw [h.fresh hfresh] at hwants
      cases hwants.2
  · exact h.skip hpending hwants

/-- The send command of a connection is carried out. -/
theorem StreamOk.send (h : StreamOk c a st) {k : Nat} {d : SendData} {rest : List (Nat × SendData)}
    {p : Peer} {taken : Option Bytes} {outgoing : Bytes}
    (hpending : c.pending = (k, d) :: rest) (hcmd : d.cmd = .send) (hfor : c.IsFor d a p)
    (hsmall : d.buffer.length < 2 ^ 31)
    (hbytes : p.outgoing ++ narrow d.buffer = taken.getD [] ++ outgoing) :
    StreamOk ({ c with pending := rest }.setPeer a { p with outgoing := outgoing }) a
      ((st.next a (.took k d)).next a (.output a taken)) := by
  obtain ⟨hlisted, hpeer, hident⟩ := hfor
  have hacc := h.account p hlisted hpeer
  have hwants : st.Wants d := ⟨hcmd, hacc.who.trans (congrArg some hident)⟩
  obtain ⟨hwho, hhanded, haccepted, -, htaken⟩ := Stream.next_took_spec st a k d
  generalize hst : st.next a (.took k d) = st₁ at hwho hhanded haccepted htaken
  have hsent : st₁.sent = st.sent ++ d.buffer := by rw [← hst, Stream.sent_taken hwants]
  have hin : (k, d) ∈ st₁.taken := by
    rw [← hst]
    simp [Stream.next, hwants]
  have hout : st₁.next a (.output a taken) = { st₁ with handed := st₁.handed ++ taken.getD [] } :=
    if_pos rfl
  -- what was waiting and what came are what was handed out and what waits now
  have hbuffered : st₁.sent = (st₁.handed ++ taken.getD []) ++ outgoing := by
    rw [hsent, hacc.buffered, hhanded, List.append_assoc, List.append_assoc, ← hbytes,
      narrow_eq_self hsmall]
  rw [hout]
  refine ⟨?_, ⟨outgoing, hbuffered.symm⟩, ?_⟩
  · intro q hl hq
    rw [setPeer_peer, if_pos rfl] at hq
    cases hq
    refine ⟨hwho.trans hacc.who, hbuffered, ?_⟩
    intro x hx
    obtain ⟨hwant, hx'⟩ := hacc.queued x (haccepted ▸ hx)
    refine ⟨⟨hwant.1, hwho.trans hwant.2⟩, ?_⟩
    rcases hx' with hx' | hx'
    · rw [hpending] at hx'
      rcases List.mem_cons.mp hx' with rfl | hx'
      · exact .inr hin
      · exact .inl hx'
    · exact .inr (htaken hx')
  · rintro (hnone | hadding)
    · rw [setPeer_peer, if_pos rfl] at hnone
      cases hnone
    · have hempty := h.fresh (.inr hadding)
      rw [hempty] at hwants
      cases hwants.2

/-- A connection leaves the list. -/
theorem StreamOk.remove (h : StreamOk c a st) {b b' : ConnectorPtr}
    (hown : c.listed b = true → b' = b) :
    StreamOk (c.setListed b' false) a (st.next a (.removed b)) := by
  by_cases hba : b = a
  · subst hba
    -- with its removal the stream is for nobody
    have hst : st.next b (.removed b) = { st with who := none } := if_pos rfl
    rw [hst]
    refine ⟨?_, h.inOrder, ?_⟩
    · intro p hl
      rw [setListed_listed] at hl
      split at hl
      · cases hl
      · rename_i hne
        exact absurd (hown hl).symm hne
    · intro hfresh
      rw [h.fresh hfresh]
      rfl
  -- another connection's removal leaves it alone
  · have hst : st.next a (.removed b) = st := if_neg hba
    rw [hst]
    refine h.congr ?_ (fun p hp => ⟨p, hp, rfl, rfl⟩) rfl h.fresh
    rw [setListed_listed]
    split
    · exact fun hl => nomatch hl
    · exact id

/-- Nothing the account is about changes, and no connection is numbered. -/
theorem StreamOk.withAdding (h : StreamOk c a st) {adding : Acceptor}
    (hnumbered : adding ≠ .numbered a) : StreamOk { c with adding := adding } a st := by
  refine h.congr id (fun q hq => ⟨q, hq, rfl, rfl⟩) rfl ?_
  rintro (hnone | hadding)
  · exact h.fresh (.inl hnone)
  · exact absurd hadding hnumbered

theorem StreamOk.withClosing (h : StreamOk c a st) (closing : Option (CloseStage × ConnectorPtr)) :
    StreamOk { c with closing := closing } a st :=
  h.congr id (fun q hq => ⟨q, hq, rfl, rfl⟩) rfl h.fresh

/-- A connection is listed under the address its stream has. -/
theorem StreamOk.known (h : StreamOk c a st) (hordered : Ordered c) {ident : Ident}
    (hwho : st.who = some ident) (hlisted : c.listed a = true) :
    ∃ q, c.peer a = some q ∧ q.ident = ident := by
  obtain ⟨q, hq⟩ := hordered.known a hlisted
  have hacc := (h.account q hlisted hq).who
  rw [hwho] at hacc
  exact ⟨q, hq, (Option.some.inj hacc).symm⟩

/-- A send command that is for another connection. -/
theorem StreamOk.sendOther (h : StreamOk c a st) (hordered : Ordered c) {k : Nat} {d : SendData}
    {rest : List (Nat × SendData)} {b : ConnectorPtr} {p : Peer} (outgoing : Bytes)
    (hpending : c.pending = (k, d) :: rest) (hfor : c.IsFor d b p) (hba : b ≠ a) :
    StreamOk ({ c with pending := rest }.setPeer b { p with outgoing := outgoing }) a
      (st.next a (.took k d)) := by
  have hmiss : StreamOk { c with pending := rest } a (st.next a (.took k d)) := by
    refine h.miss hpending fun hwants => ?_
    cases hlisted : c.listed a with
    | false => rfl
    | true =>
      -- no two listed connections have one address
      obtain ⟨q, hq, hident⟩ := h.known hordered hwants.2 hlisted
      have hsame : p.ident = q.ident := hfor.2.2.trans hident.symm
      exact absurd (hordered.unique b a p q hfor.1 hlisted hfor.2.1 hq (by rw [hsame])) hba
  have hpeer : ({ c with pending := rest }.setPeer b { p with outgoing := outgoing }).peer a =
      c.peer a := if_neg (Ne.symm hba)
  exact hmiss.congr id (fun q hq => ⟨q, hpeer ▸ hq, rfl, rfl⟩) rfl
    fun hf => hmiss.fresh (hf.imp_left fun hn => hpeer ▸ hn)

/-- A connection is closed: its address and what waits in it stay. -/
theorem StreamOk.shut (h : StreamOk c a st) {b : ConnectorPtr} {p q : Peer}
    (hpeer : c.peer b = some p) (hident : q.ident = p.ident) (hout : q.outgoing = p.outgoing) :
    StreamOk (c.setPeer b q) a st := by
  refine h.congr id ?_ rfl ?_
  · intro r hr
    rw [setPeer_peer] at hr
    split at hr
    -- the connection that is closed keeps its address
    · rename_i hab
      cases hr
      exact ⟨p, hab ▸ hpeer, hident.symm, hout.symm⟩
    · exact ⟨r, hr, rfl, rfl⟩
  · rintro (hnone | hadding)
    · rw [setPeer_peer] at hnone
      split at hnone
      · cases hnone
      · exact h.fresh (.inl hnone)
    · exact h.fresh (.inr hadding)

/-- A new connection, without an account yet. -/
theorem StreamOk.number (h : StreamOk c a st) {b : ConnectorPtr} (p : Peer)
    (hpeer : c.peer b = none) (hnot : c.listed b = false) :
    StreamOk ({ c with adding := .numbered b }.setPeer b p) a st := by
  by_cases hba : b = a
  · subst hba
    rw [h.fresh (.inl hpeer)]
    refine ⟨?_, List.prefix_refl _, fun _ => rfl⟩
    intro q hl
    rw [setPeer_listed, hnot] at hl
    cases hl
  · have hsame : ({ c with adding := .numbered b }.setPeer b p).peer a = c.peer a :=
      if_neg (Ne.symm hba)
    refine h.congr id (fun q hq => ⟨q, hsame ▸ hq, rfl, rfl⟩) rfl ?_
    rintro (hnone | hadding)
    · exact h.fresh (.inl (hsame ▸ hnone))
    · cases hadding
      exact absurd rfl hba

/-- The numbered connection is listed, and its account is opened. -/
theorem StreamOk.list (h : StreamOk c a st) (hordered : Ordered c) {b : ConnectorPtr} {p : Peer}
    (hadding : c.adding = .numbered b) (hpeer : c.peer b = some p) :
    StreamOk ({ c with adding := .added b }.setListed b true) a
      (st.next a (.added b p.ident.uid p.ident.ip p.ident.port)) := by
  by_cases hba : b = a
  · subst hba
    obtain ⟨-, q, hq, hempty⟩ := hordered.numbered b hadding
    cases hpeer.symm.trans hq
    -- nothing was said of it yet
    have hst : st = .empty := h.fresh (.inr hadding)
    subst hst
    have hnext : Stream.empty.next b (.added b p.ident.uid p.ident.ip p.ident.port) =
        { Stream.empty with who := some p.ident } := if_pos rfl
    rw [hnext]
    refine ⟨?_, List.prefix_refl _, ?_⟩
    · intro r hl hr
      cases hr.symm.trans hpeer
      exact ⟨rfl, by rw [hempty]; rfl, by simp [Stream.empty]⟩
    · rintro (hnone | hadded)
      · cases hnone.symm.trans hpeer
      · cases hadded
  · have hnext : st.next a (.added b p.ident.uid p.ident.ip p.ident.port) = st := if_neg hba
    rw [hnext]
    have h' : StreamOk { c with adding := .added b } a st := h.withAdding Acceptor.noConfusion
    refine h'.congr ?_ (fun q hq => ⟨q, hq, rfl, rfl⟩) rfl h'.fresh
    rw [setListed_listed, if_neg (Ne.symm hba)]
    exact id

/-- **Step**: with small buffers the accounts keep agreeing with the state. -/
theorem StreamOk.step (hordered : Ordered c) (h : StreamOk c a st) (hsmall : Small events)
    (hstep : Step c events c') : StreamOk c' a (events.foldl (Stream.next a) st) := by
  cases hstep with
  | idle => exact h
  | input hlisted hclosing hevents =>
    rw [Stream.next_input hevents]
    exact h
  | @accepted d => exact h.accept c.acceptedNum d
  | @pass k d rest hpending hclosing hnot =>
    refine h.miss hpending fun hwants => ?_
    rcases hnot with hcmd | hnot
    · rw [hwants.1] at hcmd
      cases hcmd
    -- a command for the connection would have found it
    · cases hlisted : c.listed a with
      | false => rfl
      | true =>
        obtain ⟨p, hp, hident⟩ := h.known hordered hwants.2 hlisted
        exact absurd ⟨hlisted, hp, hident⟩ (hnot a p)
  | @output k d rest b p taken outgoing hpending hclosing hcmd hfor hbytes =>
    -- the length is below 2^31, so that nothing is cut off
    have hlt : d.buffer.length < 2 ^ 31 := hsmall k d b taken (by simp) (by simp)
    by_cases hba : b = a
    · subst hba
      exact h.send hpending hcmd hfor hlt hbytes
    · have hout : (st.next a (.took k d)).next a (.output b taken) = st.next a (.took k d) :=
        if_neg hba
      simp only [List.foldl_cons, List.foldl_nil, hout]
      exact h.sendOther hordered outgoing hpending hfor hba
  | @called k d rest b p reason hpending hclosing hcmd hfor =>
    -- a close command hands out nothing
    have hnot : ¬ st.Wants d := by
      intro hwants
      rw [hwants.1] at hcmd
      cases hcmd
    exact (h.skip hpending hnot).withClosing _
  | stopped hclosing hpeer => exact h.withClosing _
  | @shut b p hclosing hpeer => exact (h.withClosing (some (.del, b))).shut hpeer rfl rfl
  | @removed b b' hclosing hlisted hown => exact (h.withClosing (some (.release, b))).remove hown
  | released hclosing => exact h.withClosing _
  | @numbered b p hadding hpeer hnot hout => exact h.number p hpeer hnot
  | @added b p hadding hpeer hother => exact h.list hordered hadding hpeer
  | registered hadding => exact h.withAdding Acceptor.noConfusion
  | @refused b b' p destroyed hadding hlisted hown hpeer =>
    have h' : StreamOk { c with adding := .idle } a st := h.withAdding Acceptor.noConfusion
    have hremoved := h'.remove hown
    split
    · exact hremoved
    · exact hremoved

/-! ## What a close command finds -/

/-- At a close command with number `k` every earlier send command for the connection has been
taken, and the bytes of all those taken have been handed to the kernel. -/
def FlushedBy (st : Stream) (k : Nat) : Prop :=
  (∀ x ∈ st.accepted, x.1 < k → x ∈ st.taken) ∧ st.handed = st.sent

/-- With nothing waiting in the output buffer, the close command finds everything flushed. -/
theorem StreamOk.flushed (hordered : Ordered c) (h : StreamOk c a st) {k : Nat} {d : SendData}
    {rest : List (Nat × SendData)} {p : Peer} (hpending : c.pending = (k, d) :: rest)
    (hcmd : d.cmd = .close) (hfor : c.IsFor d a p) (hempty : p.outgoing = []) :
    FlushedBy (st.next a (.took k d)) k := by
  have hacc := h.account p hfor.1 hfor.2.1
  have hnot : ¬ st.Wants d := by
    intro hwants
    rw [hwants.1] at hcmd
    cases hcmd
  rw [Stream.next_took_of_not hnot]
  constructor
  · intro x hx hlt
    obtain ⟨hwant, hin | hin⟩ := hacc.queued x hx
    -- the commands still pending have greater numbers
    · have hserials := hordered.serials
      rw [hpending] at hin hserials
      rcases List.mem_cons.mp hin with rfl | hin
      · exact absurd hwant hnot
      · exact absurd (List.rel_of_pairwise_cons hserials hin) (Nat.not_lt.mpr hlt.le)
    · exact hin
  · rw [hacc.buffered, hempty, List.append_nil]

/-- With something waiting, the close command finds bytes that were not handed out. -/
theorem StreamOk.not_flushed (h : StreamOk c a st) {k : Nat} {d : SendData} {p : Peer}
    (hcmd : d.cmd = .close) (hfor : c.IsFor d a p) (hwaiting : p.outgoing ≠ []) :
    ¬ FlushedBy (st.next a (.took k d)) k := by
  have hacc := h.account p hfor.1 hfor.2.1
  have hnot : ¬ st.Wants d := by
    intro hwants
    rw [hwants.1] at hcmd
    cases hcmd
  rw [Stream.next_took_of_not hnot]
  rintro ⟨-, hhanded⟩
  rw [hacc.buffered] at hhanded
  exact hwaiting (List.self_eq_append_right.mp hhanded)

/-- Every close command in the log found its connection flushed. -/
def Flushed (log : List NetEvent) : Prop :=
  ∀ before after a k reason holder, log = before ++ .closedCB a k reason holder :: after →
    FlushedBy (stream a before) k

/-- A step that closes a connection takes the close command just before. -/
theorem Step.took_before_closedCB {k reason : Nat} {holder : Option ConnectorPtr}
    {before after : List NetEvent} (hstep : Step c events c')
    (hevents : events = before ++ .closedCB a k reason holder :: after) :
    ∃ d rest p, c.pending = (k, d) :: rest ∧ d.cmd = .close ∧ c.IsFor d a p ∧
      before = [.took k d] := by
  have hmem : NetEvent.closedCB a k reason holder ∈ events := by simp [hevents]
  cases hstep with
  | @called k' d rest b p reason' hpending hclosing hcmd hfor =>
    rcases before with _ | ⟨e, _ | ⟨e', before⟩⟩
    · cases hevents
    · cases hevents
      exact ⟨d, rest, p, hpending, hcmd, hfor, rfl⟩
    · simp at hevents
  | input hlisted hclosing hinput => rcases hinput _ hmem with h | h <;> cases h
  | @refused b b' p destroyed hadding hlisted hown hpeer => cases destroyed <;> simp at hmem
  | _ => simp at hmem

/-- **Step**: with nothing waiting at the close commands, all of them find their connections
flushed. -/
theorem Flushed.step {log : List NetEvent} (h : Flushed log) (hordered : Ordered c)
    (hstreams : ∀ b, StreamOk c b (stream b log))
    (hempty : ∀ b k reason holder, .closedCB b k reason holder ∈ events →
      ∀ p, c.peer b = some p → p.outgoing = [])
    (hstep : Step c events c') : Flushed (log ++ events) := by
  intro before after a k reason holder hlog
  rcases List.append_eq_append_iff.mp hlog with ⟨new, rfl, hevents⟩ | ⟨old, rfl, hafter⟩
  -- the callback is one of the new events
  · obtain ⟨d, rest, p, hpending, hcmd, hfor, rfl⟩ := hstep.took_before_closedCB hevents
    rw [stream_append]
    exact (hstreams a).flushed hordered hpending hcmd hfor
      (hempty a k reason holder (by simp [hevents]) p hfor.2.1)
  · rcases List.cons_eq_append_iff.mp hafter with ⟨rfl, hevents⟩ | ⟨old', rfl, -⟩
    · have hevents' : events = [] ++ .closedCB a k reason holder :: after := hevents
      obtain ⟨d, -, -, -, -, -, hnil⟩ := hstep.took_before_closedCB hevents'
      cases hnil
    · exact h before old' a k reason holder rfl

/-! ## In the beginning -/

theorem Ordered.empty : Ordered .empty where
  known := fun _ h => nomatch h
  unique := fun _ _ _ _ h => nomatch h
  numbered := fun _ h => nomatch h
  serials := .nil
  serials_lt := fun _ h => nomatch h

theorem StreamOk.empty (a : ConnectorPtr) : StreamOk .empty a (stream a []) where
  account := fun _ h => nomatch h
  inOrder := List.prefix_refl _
  fresh := fun _ => rfl

theorem Flushed.nil : Flushed [] := by
  intro before after a k reason holder h
  cases before <;> cases h

end Connections

end Sails.Net
