import PeerAccess.Listener
import PeerAccess.Proofs.History

/-!
# Connections

Octets come in parts, and where they are divided makes no difference to the answers. Behind a guard
every message is answered as the policy of the moment says, whatever came before.
-/

namespace PeerAccess

namespace Http

open Text

/-! ## Messages with more octets behind them -/

/-- `more` comes behind what has been read. -/
def Incoming.extend (more : List Char) : Incoming → Incoming
  | complete m rest => complete m (rest ++ more)
  | i => i

section
variable {m : Message} {n k : Nat} {cs : List Char} (more : List Char)

theorem readLine_append {line rest : List Char} (h : readLine cs = some (line, rest)) :
    readLine (cs ++ more) = some (line, rest ++ more) := by
  unfold readLine at h ⊢
  obtain ⟨⟨a, b⟩, hcut, hline⟩ := Option.map_eq_some_iff.mp h
  obtain ⟨rfl, hnot⟩ := cut_eq_some_iff.mp hcut
  obtain ⟨rfl, rfl⟩ := Prod.mk.inj hline
  rw [List.append_assoc, List.cons_append, cut_append _ hnot]
  rfl

theorem skipFixed_append (h : skipFixed m n cs ≠ .unfinished) :
    skipFixed m n (cs ++ more) = (skipFixed m n cs).extend more := by
  have hn : n ≤ cs.length := by
    by_contra hlong
    exact h (if_neg hlong)
  unfold skipFixed
  rw [if_pos hn, if_pos (by simp; omega), List.drop_append_of_le_length hn]
  rfl

theorem skipTrailers_append (hk : n ≤ k) (h : skipTrailers m n cs ≠ .unfinished) :
    skipTrailers m k (cs ++ more) = (skipTrailers m n cs).extend more := by
  induction n generalizing k cs with
  | zero => exact absurd rfl h
  | succ n ih =>
    obtain ⟨k, rfl⟩ := Nat.exists_eq_add_of_lt hk
    unfold skipTrailers at h ⊢
    cases hline : readLine cs with
    | none => simp [hline] at h
    | some p =>
      obtain ⟨line, rest⟩ := p
      rw [readLine_append more hline]
      rw [hline] at h
      cases line with
      | nil => rfl
      | cons c line => exact ih (by omega) h

theorem skipChunks_append (hk : n ≤ k) (h : skipChunks m n cs ≠ .unfinished) :
    skipChunks m k (cs ++ more) = (skipChunks m n cs).extend more := by
  induction n generalizing k cs with
  | zero => exact absurd rfl h
  | succ n ih =>
    obtain ⟨k, rfl⟩ := Nat.exists_eq_add_of_lt hk
    unfold skipChunks at h ⊢
    cases hline : readLine cs with
    | none => simp [hline] at h
    | some p =>
      obtain ⟨line, rest⟩ := p
      rw [readLine_append more hline]
      rw [hline] at h
      simp only at h ⊢
      generalize trimSpaces (line.takeWhile (· != ';')) = size at h ⊢
      split at h
      · rename_i hbad
        rw [if_pos hbad, if_pos hbad]
        rfl
      rename_i hgood
      rw [if_neg hgood, if_neg hgood]
      split at h
      · rename_i hlast
        rw [if_pos hlast, if_pos hlast]
        exact skipTrailers_append more (by omega) h
      rename_i hdata
      rw [if_neg hdata, if_neg hdata]
      cases hend : readLine (rest.drop (hexadecimal size)) with
      | none => simp [hend] at h
      | some p =>
        obtain ⟨line, rest'⟩ := p
        -- A line behind the chunk has been read, so the chunk is there as a whole.
        have hsize : hexadecimal size ≤ rest.length := by
          by_contra hlong
          rw [List.drop_eq_nil_of_le (by omega)] at hend
          cases hend
        rw [List.drop_append_of_le_length hsize, readLine_append more hend]
        rw [hend] at h
        cases line with
        | nil => exact ih (by omega) h
        | cons c line => rfl

theorem readHeaders_append (hk : n ≤ k) (h : readHeaders m n cs ≠ .unfinished) :
    readHeaders m k (cs ++ more) = (readHeaders m n cs).extend more := by
  induction n generalizing m k cs with
  | zero => exact absurd rfl h
  | succ n ih =>
    obtain ⟨k, rfl⟩ := Nat.exists_eq_add_of_lt hk
    unfold readHeaders at h ⊢
    cases hline : readLine cs with
    | none => simp [hline] at h
    | some p =>
      obtain ⟨line, rest⟩ := p
      rw [readLine_append more hline]
      rw [hline] at h
      cases line with
      | nil =>
        simp only at h ⊢
        cases hframing : m.framing? with
        | none => rfl
        | some f =>
          rw [hframing] at h
          cases f with
          | fixed length => exact skipFixed_append more h
          | chunked => exact skipChunks_append more (by simp) h
      | cons c line =>
        simp only at h ⊢
        cases hheader : readHeader? (c :: line) with
        | none => rfl
        | some header =>
          rw [hheader] at h
          exact ih (by omega) h

theorem readMessage_append (hk : n ≤ k) (h : readMessage n cs ≠ .unfinished) :
    readMessage k (cs ++ more) = (readMessage n cs).extend more := by
  induction n generalizing k cs with
  | zero => exact absurd rfl h
  | succ n ih =>
    obtain ⟨k, rfl⟩ := Nat.exists_eq_add_of_lt hk
    unfold readMessage at h ⊢
    cases hline : readLine cs with
    | none => simp [hline] at h
    | some p =>
      obtain ⟨line, rest⟩ := p
      rw [readLine_append more hline]
      rw [hline] at h
      cases line with
      | nil => exact ih (by omega) h
      | cons c line =>
        simp only at h ⊢
        cases hrequest : readRequestLine? (c :: line) with
        | none => rfl
        | some m =>
          rw [hrequest] at h
          exact readHeaders_append more (by omega) h

theorem Incoming.read_append_of_complete {rest : List Char} (h : read cs = .complete m rest) :
    read (cs ++ more) = .complete m (rest ++ more) := by
  have hread : read (cs ++ more) = (read cs).extend more :=
    readMessage_append more (by simp) (by unfold read at h; simp [h])
  rw [hread, h]
  rfl

theorem Incoming.read_append_of_malformed (h : read cs = .malformed) :
    read (cs ++ more) = .malformed := by
  have hread : read (cs ++ more) = (read cs).extend more :=
    readMessage_append more (by simp) (by unfold read at h; simp [h])
  rw [hread, h]
  rfl

end

/-! ## Messages get shorter -/

section
variable {m m' : Message} {n : Nat} {cs rest : List Char}

theorem length_of_readLine {line : List Char} (h : readLine cs = some (line, rest)) :
    rest.length < cs.length := by
  unfold readLine at h
  obtain ⟨⟨a, b⟩, hcut, hline⟩ := Option.map_eq_some_iff.mp h
  obtain ⟨rfl, _⟩ := cut_eq_some_iff.mp hcut
  obtain ⟨_, rfl⟩ := Prod.mk.inj hline
  simp
  omega

theorem length_of_skipFixed (h : skipFixed m n cs = .complete m' rest) :
    rest.length ≤ cs.length := by
  unfold skipFixed at h
  split at h
  · obtain ⟨_, rfl⟩ := Incoming.complete.inj h
    simp
  · cases h

theorem length_of_skipTrailers (h : skipTrailers m n cs = .complete m' rest) :
    rest.length ≤ cs.length := by
  fun_induction skipTrailers m n cs with
  | case1 | case2 => cases h
  | case3 n cs rest' hline =>
    obtain ⟨_, rfl⟩ := Incoming.complete.inj h
    exact (length_of_readLine hline).le
  | case4 n cs line rest' _ hline ih => exact (ih h).trans (length_of_readLine hline).le

theorem length_of_skipChunks (h : skipChunks m n cs = .complete m' rest) :
    rest.length ≤ cs.length := by
  fun_induction skipChunks m n cs with
  | case1 | case2 | case3 | case5 | case7 => cases h
  | case4 n cs line rest' hline =>
    exact (length_of_skipTrailers h).trans (length_of_readLine hline).le
  | case6 n cs line rest' hline _ _ _ rest'' hend ih =>
    have hline := length_of_readLine hline
    have hend := length_of_readLine hend
    rw [List.length_drop] at hend
    have := ih h
    omega

theorem length_of_readHeaders (h : readHeaders m n cs = .complete m' rest) :
    rest.length < cs.length := by
  fun_induction readHeaders m n cs with
  | case1 | case2 | case3 | case6 => cases h
  | case4 m n cs rest' hline => exact (length_of_skipFixed h).trans_lt (length_of_readLine hline)
  | case5 m n cs rest' hline => exact (length_of_skipChunks h).trans_lt (length_of_readLine hline)
  | case7 m n cs line rest' _ hline _ _ ih => exact (ih h).trans (length_of_readLine hline)

theorem length_of_readMessage (h : readMessage n cs = .complete m' rest) :
    rest.length < cs.length := by
  fun_induction readMessage n cs with
  | case1 | case2 | case4 => cases h
  | case3 n cs rest' hline ih => exact (ih h).trans (length_of_readLine hline)
  | case5 n cs line rest' _ hline =>
    exact (length_of_readHeaders h).trans (length_of_readLine hline)

end

/-! ## Answers -/

section
variable {α : Type} {serve : Request → Handling α}

/-- How the octets that have come are answered: message by message, up to one that is not all there
or closes the connection. -/
inductive Answers (serve : Request → Handling α) : Connection → Reaction → Prop
  | closed {c : Connection} (hclosed : c.isOpen = false) : Answers serve c { connection := c }
  | waiting {c : Connection} (hopen : c.isOpen = true)
      (hread : Incoming.read c.unread = .unfinished) : Answers serve c { connection := c }
  | malformed {c : Connection} (hopen : c.isOpen = true)
      (hread : Incoming.read c.unread = .malformed) :
      Answers serve c
        { connection := { c with unread := [], isOpen := false }, replies := [Reply.badRequest] }
  | answered {c : Connection} {m : Message} {rest : List Char} {next : Reaction}
      (hopen : c.isOpen = true) (hread : Incoming.read c.unread = .complete m rest)
      (hnext : Answers serve
        { c with unread := if m.keepsAlive then rest else [], isOpen := m.keepsAlive } next) :
      Answers serve c
        { connection := next.connection
          replies := Reply.answering m (serve (m.request c.peer)).response :: next.replies
          events := (serve (m.request c.peer)).events ++ next.events }

theorem Answers.unique {c : Connection} {r r' : Reaction} (h : Answers serve c r)
    (h' : Answers serve c r') : r = r' := by
  induction h generalizing r' with
  | closed hclosed => cases h' <;> simp_all
  | waiting hopen hread => cases h' <;> simp_all
  | malformed hopen hread => cases h' <;> simp_all
  | answered hopen hread _ ih =>
    cases h' with
    | answered _ hread' hnext' =>
      rw [hread] at hread'
      obtain ⟨rfl, rfl⟩ := Incoming.complete.inj hread'
      rw [ih hnext']
    | _ => simp_all

-- A message takes a unit of fuel and has an octet, so a unit for each octet is enough.
theorem answers_answerAll {n : Nat} {c : Connection} (h : c.unread.length ≤ n) :
    Answers serve c (c.answerAll serve n) := by
  induction n generalizing c with
  | zero =>
    cases hopen : c.isOpen with
    | false => exact .closed hopen
    | true => exact .waiting hopen (by rw [List.eq_nil_of_length_eq_zero (Nat.le_zero.mp h)]; rfl)
  | succ n ih =>
    unfold Connection.answerAll
    cases hopen : c.isOpen with
    | false => exact .closed hopen
    | true =>
      cases hread : Incoming.read c.unread with
      | unfinished => exact .waiting hopen hread
      | malformed => exact .malformed hopen hread
      | complete m rest =>
        refine .answered hopen hread (ih ?_)
        have hrest := length_of_readMessage hread
        cases m.keepsAlive <;> simp
        omega

theorem answers_receive {c : Connection} (hopen : c.isOpen = true) (octets : List Char) :
    Answers serve { c with unread := c.unread ++ octets } (c.receive serve octets) := by
  unfold Connection.receive
  rw [if_pos hopen]
  exact answers_answerAll le_rfl

theorem Answers.eq_of_closed {c : Connection} {r : Reaction} (h : Answers serve c r)
    (hclosed : c.isOpen = false) : r = { connection := c } := h.unique (.closed hclosed)

section
variable {c : Connection} {first second : Reaction} {more : List Char}
  (h : Answers serve c first)
include h

theorem Answers.append (hopen : first.connection.isOpen = true)
    (hmore : Answers serve
      { first.connection with unread := first.connection.unread ++ more } second) :
    Answers serve { c with unread := c.unread ++ more }
      { connection := second.connection
        replies := first.replies ++ second.replies
        events := first.events ++ second.events } := by
  induction h with
  | closed | waiting => exact hmore
  | malformed => cases hopen
  | @answered c m rest next hopen' hread hnext ih =>
    cases hkeeps : m.keepsAlive with
    | false =>
      rw [hnext.eq_of_closed hkeeps] at hopen
      simp [hkeeps] at hopen
    | true =>
      have hnext' := ih hopen hmore
      rw [hkeeps] at hnext'
      have hall := Answers.answered (c := { c with unread := c.unread ++ more }) hopen'
        (Incoming.read_append_of_complete more hread) (by rw [hkeeps]; exact hnext')
      rwa [← List.append_assoc] at hall

theorem Answers.append_closed (hopen : c.isOpen = true)
    (hclosed : first.connection.isOpen = false) :
    Answers serve { c with unread := c.unread ++ more } first := by
  induction h with
  | closed hclosed' => simp [hopen] at hclosed'
  | waiting => simp [hopen] at hclosed
  | malformed _ hread => exact .malformed hopen (Incoming.read_append_of_malformed more hread)
  | @answered c m rest next _ hread hnext ih =>
    refine .answered hopen (Incoming.read_append_of_complete more hread) ?_
    cases hkeeps : m.keepsAlive with
    | false => simpa [hkeeps] using hnext
    | true =>
      rw [hkeeps] at ih
      exact ih rfl hclosed

theorem Answers.mem_replies {reply : Reply} (hreply : reply ∈ first.replies) :
    reply = Reply.badRequest ∨
      ∃ m, reply = Reply.answering m (serve (Message.request m c.peer)).response := by
  induction h with
  | closed | waiting => cases hreply
  | malformed => exact .inl (List.mem_singleton.mp hreply)
  | @answered c m rest next _ _ _ ih =>
    rcases List.mem_cons.mp hreply with rfl | hreply
    · exact .inr ⟨m, rfl⟩
    · exact ih hreply

end

namespace Connection

theorem receive_of_closed {c : Connection} (h : c.isOpen = false) (octets : List Char) :
    c.receive serve octets = { connection := c } := by
  unfold receive
  rw [if_neg (by simp [h])]

/-- Octets that come in two parts are answered as if they came at once. -/
theorem receive_append (c : Connection) (xs ys : List Char) :
    c.receive serve (xs ++ ys) =
      { connection := ((c.receive serve xs).connection.receive serve ys).connection
        replies := (c.receive serve xs).replies ++
          ((c.receive serve xs).connection.receive serve ys).replies
        events := (c.receive serve xs).events ++
          ((c.receive serve xs).connection.receive serve ys).events } := by
  cases hopen : c.isOpen with
  | false => simp [receive_of_closed, hopen]
  | true =>
    have hall : Answers serve _ (c.receive serve (xs ++ ys)) := answers_receive hopen _
    have hfirst : Answers serve _ (c.receive serve xs) := answers_receive hopen xs
    rw [← List.append_assoc] at hall
    cases hstill : (c.receive serve xs).connection.isOpen with
    | true => exact hall.unique (hfirst.append hstill (answers_receive hstill ys))
    | false =>
      rw [hall.unique (hfirst.append_closed hopen hstill), receive_of_closed hstill]
      simp

theorem mem_replies {c : Connection} {octets : List Char} {reply : Reply}
    (h : reply ∈ (c.receive serve octets).replies) :
    reply = Reply.badRequest ∨
      ∃ m, reply = Reply.answering m (serve (Message.request m c.peer)).response := by
  cases hopen : c.isOpen with
  | false => simp [receive_of_closed hopen] at h
  | true => exact (answers_receive hopen octets).mem_replies h

end Connection

end

end Http

/-! ## Behind a listener -/

namespace Listener

open Http

def Step.change? : Step → Option Change
  | change c => some c
  | connect .. | sendOnce .. | send .. | hangUp _ | shutDown => none

section
variable {κ : Type}

/-- The listener but for its clients. -/
def guards (l : Listener κ) : Listener κ := { l with accepting := true, clients := [] }

theorem serve_guards (l : Listener κ) : l.guards.serve = l.serve := rfl

variable [DecidableEq κ]

def after (link : Link) (l : Listener κ) (ss : List Step) : Listener κ :=
  ss.foldl (fun l s => (l.step link s).1) l

theorem setPolicy_policy (l : Listener κ) : l.setPolicy l.policy = l := by
  obtain ⟨handler, policies, gate, accepting, clients⟩ := l
  unfold setPolicy policy
  congr
  funext k
  by_cases hk : k = gate <;> simp [hk]

theorem policy_setPolicy (l : Listener κ) (p : Policy) : (l.setPolicy p).policy = p := if_pos rfl

theorem setPolicy_setPolicy (l : Listener κ) (p q : Policy) :
    (l.setPolicy p).setPolicy q = l.setPolicy q := by
  unfold setPolicy
  congr
  funext k
  by_cases hk : k = l.gate <;> simp [hk]

-- Clients come and go; what stands between them and an answer is up to the changes.
theorem guards_step (link : Link) (l : Listener κ) (s : Step) :
    (l.step link s).1.guards = (l.setPolicy (l.policy.after s.change?.toList)).guards := by
  -- Without a change the policy stays, and so does the listener with it.
  have hkeep : l.setPolicy (l.policy.after []) = l := l.setPolicy_policy
  cases s with
  | change c => rfl
  | connect name peer | sendOnce peer octets =>
    rw [Step.change?, Option.toList_none, hkeep]
    unfold step
    cases l.obstacle? link <;> rfl
  | send name count octets =>
    rw [Step.change?, Option.toList_none, hkeep]
    simp only [step]
    cases l.client? name <;> rfl
  | hangUp name | shutDown =>
    rw [Step.change?, Option.toList_none, hkeep]
    rfl

theorem guards_after (link : Link) (l : Listener κ) (ss : List Step) :
    (l.after link ss).guards =
      (l.setPolicy (l.policy.after (ss.filterMap Step.change?))).guards := by
  induction ss generalizing l with
  | nil => exact congrArg guards l.setPolicy_policy.symm
  | cons s ss ih =>
    have hstep := l.guards_step link s
    have hpolicy : (l.step link s).1.policy = l.policy.after s.change?.toList :=
      (congrArg policy hstep).trans (l.policy_setPolicy _)
    have hset (p : Policy) : ((l.step link s).1.setPolicy p).guards = (l.setPolicy p).guards := by
      rw [← l.setPolicy_setPolicy (l.policy.after s.change?.toList) p]
      exact congrArg (setPolicy · p) hstep
    have hchanges : (s :: ss).filterMap Step.change? =
        s.change?.toList ++ ss.filterMap Step.change? := by
      cases hs : s.change? <;> simp [hs]
    calc (l.after link (s :: ss)).guards
        = ((l.step link s).1.after link ss).guards := rfl
      _ = (l.setPolicy ((l.policy.after s.change?.toList).after
            (ss.filterMap Step.change?))).guards := by rw [ih, hset, hpolicy]
      _ = _ := by rw [hchanges, Policy.after, Policy.after, Policy.after, ← List.foldl_append]

end

theorem serve_serving (p : Policy) (r : Request) :
    ((serving p).serve r).response =
      if p.admits r.peer.ip then { status := 200, body := "ok" } else { status := 403 } := by
  simp only [serve, serving, Handler.handle]
  split <;> rfl

/-- Behind a guard all messages of a peer get one answer, the one that the changes so far call
for. -/
theorem replies_of_serving (link : Link) (p : Policy) (ss : List Step) (c : Connection)
    (octets : List Char) :
    ∀ reply ∈ (c.receive ((serving p).after link ss).serve octets).replies,
      reply = Reply.badRequest ∨ ∃ m, reply = Reply.answering m
        (if (p.after (ss.filterMap Step.change?)).admits c.peer.ip then
          { status := 200, body := "ok" }
        else { status := 403 }) := by
  intro reply hreply
  have hserve : ((serving p).after link ss).serve =
      (serving (p.after (ss.filterMap Step.change?))).serve := by
    rw [← serve_guards, guards_after]
    rfl
  rw [hserve] at hreply
  refine (Connection.mem_replies hreply).imp_right fun ⟨m, hm⟩ => ⟨m, ?_⟩
  rw [hm, serve_serving]
  rfl

end Listener

end PeerAccess
