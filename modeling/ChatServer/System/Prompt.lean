import ChatServer.System.Replies

/-!
# The prompt comes back

What the user of a sender sees under fair scheduling on an intact connection: every request
that was typed is answered, and the next prompt follows.

Main results:

- Theorem {lit}`answered_of_reply`: with the last reply everything is answered.
- Theorem {lit}`prompt_returns`: the dialogue of a sender goes on.

Current gaps:

- How long anything takes is not considered, and every write returns.
- Only intact connections are considered: no send and no receive fails, and all messages are
  legal.  The reply to a join of a room with a name of 240 letters is too long to be legal,
  and a text with a NUL is not legal.
-/

namespace ChatServer

open Function Filter TransitionSystem

/-! ## The prompt -/

/-- The receive of a reply. -/
theorem reply_received {p p' : Peer} {writes : ClientWrites} {quits : Bool}
    (hpc : p.client.pc = .sender (.reply quits)) (hcall : p.call writes = some p') :
    p'.client.pc = (if quits then .exited 0 else .sender .prompt) ∧
      p'.client.username = p.client.username ∧ typedLines p'.events = typedLines p.events ∧
      (clientMessages p'.events).length = (clientMessages p.events).length + 1 := by
  have hcalled : p.client.code.Called p.client fun cl e =>
      cl.pc = (if quits then .exited 0 else .sender .prompt) ∧
        cl.username = p.client.username ∧ ∃ line m, e = .received line m := by
    rw [Client.code_sender hpc]
    refine ⟨fun line _ => ⟨rfl, ?_, line, _, rfl⟩, fun line m _ => ⟨rfl, ?_, some line, m, rfl⟩⟩
    · dsimp only
      split_ifs <;> rfl
    · dsimp only
      split_ifs <;> rfl
  obtain ⟨cl, e, ⟨hcl, hname, line, m, rfl⟩, hclient, hevents⟩ := Peer.called hcall hcalled
  rw [hclient, hevents, clientMessages_received]
  exact ⟨hcl, hname, by simp [typedLines], by simp⟩

/-- With the last reply everything is answered. -/
theorem answered_of_reply {s s' : Network} (hs : network.Reachable s) {c : ConnId}
    (hintact : s.Intact c) (hintact' : s'.Intact c) {writes : ClientWrites} {quits : Bool}
    (hpc : (s.peers c).client.pc = .sender (.reply quits))
    (hstep : network.step s (.call c writes) = some s') : s'.Answered c := by
  have hloop : (s.peers c).client.pc.inCommandLoop := by
    rw [hpc]
    rfl
  have hserver : s'.server = s.server := (Option.some.inj (networkStep_server hstep)).symm
  obtain ⟨hpc', hname, htyped, hmore⟩ := reply_received hpc (call_of_step hstep)
  have hstarted' : s'.Started c := by
    rw [Network.Started, hpc']
    split_ifs <;> simp
  have htyped' : typedRequests (s'.peers c).events = typedRequests (s.peers c).events := by
    rw [typedRequests, typedRequests, htyped]
  have htalk := reachable_talk hs (started_of_inCommandLoop hloop)
  unfold Talk at htalk
  rw [hpc] at htalk
  obtain ⟨hrequests, hcount, -⟩ := htalk
  rw [hrequests, List.length_cons] at hcount
  obtain ⟨-, hgreeted⟩ := sender_login hs hloop hintact
  obtain ⟨got, todo, hframes, -, hgot, -⟩ :=
    carried_down (.step hs trivial hstep) hstarted' hintact'
  rw [hserver, hgreeted.calls.1] at hframes
  rw [hgot, List.length_map] at hmore
  have hlength := congrArg List.length hframes
  rw [List.length_cons, List.length_append] at hlength
  obtain ⟨hreplies, htexts, hfinished⟩ := sender_answered hs hloop hintact (by omega)
  rw [hreplies, length_senderDialogue] at hlength
  have htodo : todo = [] := List.length_eq_zero_iff.mp (by omega)
  rw [htodo, List.append_nil] at hframes
  refine ⟨?_, ?_, ?_⟩
  · rw [hgot, ← hframes, hreplies, hname, htyped']
    rfl
  · rw [hserver, htexts, hname, htyped']
  · rw [hserver]
    exact hfinished

/-- A request is sent. -/
theorem request_sent {ρ : network.Behavior} (hfair : Fair ρ) {n : ℕ} {c : ConnId}
    (hintact : ∀ m, n ≤ m → (ρ.states m).Intact c) {quits : Bool}
    (hpc : ((ρ.states n).peers c).client.pc = .sender (.request quits)) :
    ∃ m, n ≤ m ∧ ((ρ.states m).peers c).client.pc = .sender (.reply quits) ∧
      typedLines ((ρ.states m).peers c).events = typedLines ((ρ.states n).peers c).events := by
  have hstarted : (ρ.states n).Started c := by simp [Network.Started, hpc]
  have hcode : ∀ {cl : Client}, cl.pc = .sender (.request quits) →
      cl.code = senderMain cl (.request quits) := Client.code_sender
  obtain ⟨m, writes, hm, hstep, hclient, hevents⟩ := next_client_call hstarted <|
    (hfair.clients c).occurs fun hno => eventually_atTop.mpr ⟨n, fun m hm => by
      have hpc' : ((ρ.states m).peers c).client.pc = .sender (.request quits) := by
        rw [(client_stays hstarted hno hm).1, hpc]
      refine enabledIn_calls ?_ fun msg k hop => ?_
      · simp [hcode hpc', senderMain]
      · simp [hcode hpc', senderMain] at hop⟩
  have hpc' : ((ρ.states m).peers c).client.pc = .sender (.request quits) := by
    rw [hclient, hpc]
  have hcalled : ((ρ.states m).peers c).client.code.Called ((ρ.states m).peers c).client fun cl e =>
      ∃ msg ok, e = .sent msg ok ∧ (ok = true → cl.pc = .sender (.reply quits)) := by
    rw [hcode hpc']
    refine ⟨⟨_, false, rfl, fun h => by cases h⟩, fun ok => ⟨_, ok, rfl, fun _ => ?_⟩⟩
    dsimp only
    split_ifs <;> rfl
  obtain ⟨cl, e, ⟨msg, ok, rfl, hcl⟩, hclient', hevents'⟩ :=
    Peer.called (call_of_step hstep) hcalled
  have hok : ok = true := by
    cases ok with
    | true => rfl
    | false =>
        refine absurd ?_ ((hintact (m + 1) (by omega)).client_not_failed msg)
        rw [hevents']
        simp
  refine ⟨m + 1, by omega, by rw [hclient', hcl hok], ?_⟩
  rw [hevents', hevents]
  simp [typedLines]

/-- The dialogue of a sender goes on until everything is answered. -/
theorem prompt_again {ρ : network.Behavior} (hfair : Fair ρ) {n : ℕ} {c : ConnId}
    (hintact : ∀ m, n ≤ m → (ρ.states m).Intact c)
    (hloop : ((ρ.states n).peers c).client.pc.inCommandLoop) :
    ∃ m, n ≤ m ∧ (((ρ.states m).peers c).client.pc = .sender .prompt ∨
        ((ρ.states m).peers c).client.pc = .exited 0) ∧
      typedLines ((ρ.states m).peers c).events = typedLines ((ρ.states n).peers c).events ∧
      (ρ.states m).Answered c := by
  have hwaiting : ((ρ.states n).peers c).client.pc = .sender .prompt ∨ ∃ k quits, n ≤ k ∧
      ((ρ.states k).peers c).client.pc = .sender (.reply quits) ∧
      typedLines ((ρ.states k).peers c).events = typedLines ((ρ.states n).peers c).events := by
    unfold ClientPc.inCommandLoop at hloop
    split at hloop <;> rename_i hpc
    · exact .inl hpc
    · obtain ⟨k, hk, hsent⟩ := request_sent hfair hintact hpc
      exact .inr ⟨k, _, hk, hsent⟩
    · exact .inr ⟨n, _, le_rfl, hpc, rfl⟩
    · cases hloop
  rcases hwaiting with hprompt | ⟨k, quits, hk, hreply, htyped⟩
  · exact ⟨n, le_rfl, .inl hprompt, rfl,
      answered_of_prompt (ρ.reachable n) hprompt (hintact n le_rfl)⟩
  · obtain ⟨m, writes, hm, hstep, hclient, hevents⟩ := next_client_call
      (started_of_awaits (by rw [hreply]; rfl))
      (reply_arrives hfair (fun m hm => hintact m (hk.trans hm)) (by rw [hreply]; rfl))
    rw [← hclient] at hreply
    rw [← hevents] at htyped
    obtain ⟨hpc, -, hsame, -⟩ := reply_received hreply (call_of_step hstep)
    refine ⟨m + 1, by omega, ?_, hsame.trans htyped,
      answered_of_reply (ρ.reachable m) (hintact m (by omega)) (hintact (m + 1) (by omega)) hreply
        hstep⟩
    rw [hpc]
    split_ifs
    · exact .inr rfl
    · exact .inl rfl

/-- The prompt comes back.  Under fair scheduling, whatever the other clients do, the user of
a sender in its loop sees, before typing anything else, the replies of the sequential program
to all requests typed so far; their texts have been broadcast completely; and the client
prompts for the next line or has ended normally, unless its connection does not stay
intact: a send or a receive fails on it, or a message that is not legal is sent. -/
theorem prompt_returns {ρ : network.Behavior} (hfair : Fair ρ) {n : ℕ} {c : ConnId}
    (hloop : ((ρ.states n).peers c).client.pc.inCommandLoop) :
    ∃ m, n ≤ m ∧ (¬ (ρ.states m).Intact c ∨
      (((ρ.states m).peers c).client.pc = .sender .prompt ∨
          ((ρ.states m).peers c).client.pc = .exited 0) ∧
        typedLines ((ρ.states m).peers c).events = typedLines ((ρ.states n).peers c).events ∧
        (ρ.states m).Answered c) := by
  by_cases hintact : ∀ m, n ≤ m → (ρ.states m).Intact c
  · obtain ⟨m, hm, hanswered⟩ := prompt_again hfair hintact hloop
    exact ⟨m, hm, .inr hanswered⟩
  · simp only [not_forall] at hintact
    rcases hintact with ⟨m, hm, hfailed⟩
    exact ⟨m, hm, .inl hfailed⟩

/-- A sender that has typed a text and waits for the reply to it. -/
theorem prompt_returns_hi :
    ∃ ρ : network.Behavior,
      ((ρ.states 35).peers 0).client.pc = .sender (.reply false) ∧
      (typedLines ((ρ.states 35).peers 0).events).map trim = [str "/join hall", str "hi"] ∧
      ∃ m, 35 ≤ m ∧ (¬ (ρ.states m).Intact 0 ∨
        (((ρ.states m).peers 0).client.pc = .sender .prompt ∨
            ((ρ.states m).peers 0).client.pc = .exited 0) ∧
          (typedLines ((ρ.states m).peers 0).events).map trim = [str "/join hall", str "hi"] ∧
          (ρ.states m).Answered 0) := by
  rcases annIsLost_fair with ⟨s, hrun, hfair⟩
  have hobs := Behavior.observe_ofRun hrun (k := 35)
    (f := fun s => ((s.peers 0).client.pc, (typedLines (s.peers 0).events).map trim))
    (b := (.sender (.reply false), [str "/join hall", str "hi"])) (by decide +kernel)
  rw [Prod.mk.injEq] at hobs
  obtain ⟨hpc, htyped⟩ := hobs
  obtain ⟨m, hm, hend⟩ := prompt_returns hfair (n := 35) (c := 0) (by rw [hpc]; rfl)
  refine ⟨Behavior.ofRun hrun, hpc, htyped, m, hm, hend.imp_right ?_⟩
  rintro ⟨hback, hsame, hanswered⟩
  exact ⟨hback, by rw [hsame, htyped], hanswered⟩

end ChatServer
