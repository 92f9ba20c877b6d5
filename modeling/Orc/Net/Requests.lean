import Orc.Net.Intake

/-!
# Requests and the loop

Every request that the control socket hands over gets one reply, in order, whatever its bytes
(`requests_answered_in_order`). The loop that reads them is left in two cases only: an order to stop
is seen at its head, or a call on a socket fails (`loop_left_iff`). Nothing that is read ends it,
and no file operation that fails. The second case is within reach of a client, since libzmq makes
the call for the reply fail if the request had more parts than the one that was read; which calls
fail is therefore not excluded here but part of the statement.

A poll looks at both sockets, and a bounded number of batches is read before the request it found.
So requests cannot be starved by a flood of batches (`requests_not_starved`). This needs an
assumption on the calls, `Host.Asks`: the poll reports the control socket as long as requests wait
on it.
-/

namespace Orc

open Bytes Fault

/-! ## Replies -/

/-- The state of the requests of a server whose engine is `e`, after it was handed `asked`. -/
structure Host.Control (w : Setting) (e : Engine) (asked : List Bytes) (h : Host) : Prop where
  asked : h.asked = asked
  replies : ∀ a ∈ h.answered, Replies w e a.1 a.2
  pending : ∀ request reply, h.pc = .replying request reply → Replies w e request reply
  order : ∃ open_, h.asked = h.answered.map Prod.fst ++ open_ ∧ open_.length ≤ 1 ∧
    (h.node.process.isSome = true → h.pc.left = none → open_ = h.pc.outstanding)

section Control

variable {w : Setting} {p : Process} {h h' : Host} {ev : HostEvent} {env : Env} {e : Engine}
  {asked : List Bytes}

private theorem Host.Control.bound (n : Node) : (Host.bound n).Control w e [] where
  asked := rfl
  replies _ h := absurd h List.not_mem_nil
  pending _ _ h := by cases h
  order := ⟨[], rfl, Nat.zero_le 1, fun _ _ ↦ rfl⟩

/-- A step that reads no request and sends no reply; if it ends in the loop, then at a place where
no reply is to be sent, or where it was. -/
private theorem Host.Control.keep (hc : h.Control w e asked) (halive : h.node.process.isSome = true)
    (hasked : h'.asked = h.asked) (hanswered : h'.answered = h.answered)
    (hpc : h'.pc = h.pc ∨ h'.pc.outstanding = [] ∧ (h'.pc.left = none → h.pc.left = none ∧
      h.pc.outstanding = [])) : h'.Control w e asked := by
  obtain ⟨rest, hrest, hone, houtstanding⟩ := hc.order
  refine ⟨hasked.trans hc.asked, hanswered ▸ hc.replies, ?_,
    ⟨rest, by rw [hasked, hanswered, hrest], hone, ?_⟩⟩
  · intro request reply hreplying
    rcases hpc with hpc | ⟨hnone, -⟩
    · exact hc.pending request reply (hpc ▸ hreplying)
    · rw [hreplying] at hnone
      cases hnone
  · intro _ hleft
    rcases hpc with hpc | ⟨hnone, hloop⟩
    · rw [hpc] at hleft ⊢
      exact houtstanding halive hleft
    · obtain ⟨hleft', hnone'⟩ := hloop hleft
      rw [hnone, houtstanding halive hleft', hnone']

private theorem Host.Control.inLoop (hc : h.Control w e asked)
    (halive : h.node.process.isSome = true) (hsame : h.Untouched h') (hpc : h.pc.between = true)
    (hpc' : h'.pc.between = true) : h'.Control w e asked := by
  obtain ⟨hnone, hleft⟩ := ServerPc.of_between hpc
  exact hc.keep halive hsame.asked hsame.answered
    (.inr ⟨(ServerPc.of_between hpc').1, fun _ ↦ ⟨hleft, hnone⟩⟩)

private theorem Host.Control.outside (hc : h.Control w e asked)
    (halive : h.node.process.isSome = true) (hsame : h.Untouched h')
    (hpc' : h'.pc.left.isSome = true) : h'.Control w e asked := by
  refine hc.keep halive hsame.asked hsame.answered
    (.inr ⟨ServerPc.outstanding_of_left hpc', fun h ↦ ?_⟩)
  rw [h] at hpc'
  cases hpc'

private theorem Host.Control.ask (hc : h.Control w e asked)
    (halive : h.node.process.isSome = true) {request : Bytes} {r : Option ControlReply}
    (hpc : h.pc = .control) (hanswer : Answered w e env.oracle request
      { h with asked := h.asked ++ [request] } h' r) (pc : ServerPc)
    (hpc' : (∃ reply, r = some reply ∧ pc = .replying request reply) ∨ r = none ∧ pc = h'.pc) :
    (h'.goto pc).Control w e (asked ++ [request]) := by
  obtain ⟨rest, hrest, -, houtstanding⟩ := hc.order
  have hnil : rest = [] := by
    rw [houtstanding halive (by rw [hpc]; rfl), hpc]
    rfl
  have hasked : (h'.goto pc).asked = h.asked ++ [request] := hanswer.asked
  have hanswered : (h'.goto pc).answered = h.answered := hanswer.answered
  refine ⟨by rw [hasked, hc.asked], hanswered ▸ hc.replies, ?_, [request], ?_, le_refl 1, ?_⟩
  · intro q reply hreplying
    rcases hpc' with ⟨reply', hr, hpc'⟩ | ⟨-, hpc'⟩
    · obtain ⟨rfl, rfl⟩ := ServerPc.replying.inj (hpc'.symm.trans hreplying)
      exact hanswer.reply _ hr
    · cases ((hpc'.trans (hanswer.pc.trans hpc)).symm.trans hreplying)
  · rw [hasked, hanswered, hrest, hnil, List.append_nil]
  · intro halive' _
    rcases hpc' with ⟨reply, -, rfl⟩ | ⟨hr, -⟩
    · rfl
    · have hgone : (h'.goto pc).node.process = none := hanswer.gone hr
      rw [hgone] at halive'
      cases halive'

private theorem Host.Control.reply (hc : h.Control w e asked)
    (halive : h.node.process.isSome = true) {request : Bytes} {reply : ControlReply}
    (hpc : h.pc = .replying request reply) :
    { h with pc := .polling, answered := h.answered ++ [(request, reply)] }.Control w e asked := by
  obtain ⟨rest, hrest, -, houtstanding⟩ := hc.order
  have hone : rest = [request] := by
    rw [houtstanding halive (by rw [hpc]; rfl), hpc]
    rfl
  refine ⟨hc.asked, ?_, ?_, ⟨[], ?_, Nat.zero_le 1, fun _ _ ↦ rfl⟩⟩
  · intro a ha
    rcases List.mem_append.1 ha with hold | hlast
    · exact hc.replies a hold
    · rw [List.mem_singleton.1 hlast]
      exact hc.pending request reply hpc
  · intro q r hreplying
    cases hreplying
  · rw [hrest, hone, List.map_append, List.append_nil]
    rfl

private theorem Host.Control.of_move (hc : h.Control w p.engine asked)
    (hproc : h.node.process = some p) (hmove : h.Move w p env h') :
    h'.Control w p.engine
      (asked ++ if h.pc.takesRequest then env.received.messages else []) := by
  have halive : h.node.process.isSome = true := by rw [hproc]; rfl
  have hsame : ∀ n pc timerStop, h.Untouched { h with node := n, pc, timerStop } :=
    fun _ _ _ ↦ ⟨rfl, rfl, rfl⟩
  -- at any place but one no request is read
  have hnone : ∀ {h' : Host}, (h.pc.takesRequest = true → env.received.messages = []) →
      h'.Control w p.engine asked →
      h'.Control w p.engine (asked ++ if h.pc.takesRequest then env.received.messages else []) := by
    intro h' hmessage hc'
    split_ifs with htakes
    · rwa [hmessage htakes, List.append_nil]
    · rwa [List.append_nil]
  have hleft : h.pc.left.isSome = true → h.pc.takesRequest = false := by
    cases h.pc <;> simp [ServerPc.left, ServerPc.takesRequest]
  cases hmove with
  | idle hidle => exact hnone (by simp [hleft hidle]) (hc.keep halive rfl rfl (.inl rfl))
  | goes hgo =>
    refine hnone ?_ (hc.inLoop halive (hsame _ _ _) hgo.between.1 hgo.between.2)
    cases hgo with
    | returns _ hreceived => simp [hreceived, Recv.messages]
    | polls hpc => simp [hpc, ServerPc.takesRequest]
    | retries hpc => simp [hpc, ServerPc.takesRequest]
    | skips hpc => simp [hpc, ServerPc.takesRequest]
    | empties hpc => simp [hpc, ServerPc.takesRequest]
  | leaves hpc =>
    exact hnone (by simp [hpc, ServerPc.takesRequest]) (hc.outside halive (hsame _ _ _) rfl)
  | fails hfails =>
    refine hnone (fun htakes ↦ ?_) (hc.outside halive (hsame _ _ _) rfl)
    cases hpc : h.pc with
    | control =>
      rw [hpc] at hfails
      rcases hfails with hreceived | hreceived <;> rw [hreceived] <;> rfl
    | _ => rw [hpc] at htakes; cases htakes
  | reads hpc _ hread =>
    obtain ⟨h₁, h₂, h₃⟩ := hread.untouched
    exact hnone (by simp [hpc, ServerPc.takesRequest]) (hc.inLoop halive ⟨h₁, h₂, h₃⟩
      (by rw [hpc]; rfl) (Host.between_nextDrain _ _))
  | asks hpc hrequest hanswer =>
    rw [hpc, hrequest]
    exact hc.ask halive hpc hanswer _ (.inl ⟨_, rfl, rfl⟩)
  | dies hpc hrequest hanswer =>
    rw [hpc, hrequest]
    exact hc.ask halive hpc hanswer h'.pc (.inr ⟨rfl, rfl⟩)
  | replies hpc => exact hnone (by simp [hpc, ServerPc.takesRequest]) (hc.reply halive hpc)
  | drains hpc _ hread =>
    refine hnone (by simp [hpc, ServerPc.takesRequest]) (hc.outside halive hread.untouched ?_)
    rw [hread.pc, hpc]
    rfl
  | drainsLate hpc _ _ hread =>
    obtain ⟨h₁, h₂, h₃⟩ := hread.untouched
    exact hnone (by simp [hpc, ServerPc.takesRequest]) (hc.outside halive ⟨h₁, h₂, h₃⟩ rfl)
  | drained hpc =>
    exact hnone (by simp [hpc, ServerPc.takesRequest]) (hc.outside halive (hsame _ _ _) rfl)
  | drainFails hpc =>
    exact hnone (by simp [hpc, ServerPc.takesRequest]) (hc.outside halive (hsame _ _ _) rfl)
  | begins hpc =>
    exact hnone (by simp [hpc, ServerPc.takesRequest]) (hc.outside halive (hsame _ _ _) rfl)
  | closes hpc =>
    refine hnone (by simp [hpc, ServerPc.takesRequest]) (hc.outside halive (hsame _ _ _) ?_)
    rcases (h.node.call env.oracle (walCall close)).2 with _ | _ | _ <;> rfl

private theorem Host.Control.after (hc : h.Control w e asked)
    (hengine : ∀ p, h.node.process = some p → p.engine = e) (ev : HostEvent) :
    (h.after w ev).Control w e (asked ++ h.requestsIn ev) := by
  cases hproc : h.node.process with
  | none =>
    have hnone : h.requestsIn ev = [] := by
      cases ev <;> simp [Host.requestsIn, hproc]
    rw [Host.after_down hproc, hnone, List.append_nil]
    exact hc
  | some p =>
    have halive : h.node.process.isSome = true := by rw [hproc]; rfl
    have hturn : h.Turn w p ev (h.after w ev) := Host.after_turn hproc ev
    generalize h.after w ev = h' at hturn
    cases hturn with
    | serves hmove =>
      rw [← hengine p hproc] at hc ⊢
      rw [Host.requestsIn, hproc]
      exact hc.of_move hproc hmove
    | _ =>
      change Host.Control w e (asked ++ []) _
      rw [List.append_nil]
      exact hc.keep halive rfl rfl (.inl rfl)

/-- **The requests of a run.** -/
theorem Host.control_run {n : Node} (hproc : n.process = some p) (evs : List HostEvent) :
    ((Host.bound n).run w evs).Control w p.engine
      (Machine.outputs (Host.after w) Host.requestsIn (Host.bound n) evs) := by
  induction evs using List.reverseRecOn with
  | nil => exact .bound n
  | append_singleton past ev ih =>
    have hbooks : ((Host.bound n).run w past).Books w.crc p.engine _ _ := Host.books_run hproc past
    rw [Host.run_append, Machine.outputs_append]
    exact ih.after (fun q hq ↦ (hbooks.running q hq).1) ev

end Control

/-- **Every request gets one reply, in order.** Over any run of a server, whatever its sockets
return: the requests read are those handed over; the replies sent are to the first of them, in their
order and each a reply to its request; one more request at most has been read. While the process
lives and is in its loop, only the request whose reply is to be sent next is unanswered. -/
theorem requests_answered_in_order (w : Setting) {n : Node} {p : Process}
    (hproc : n.process = some p) (evs : List HostEvent) :
    let h := (Host.bound n).run w evs
    h.asked = Machine.outputs (Host.after w) Host.requestsIn (Host.bound n) evs ∧
      (∀ a ∈ h.answered, Replies w p.engine a.1 a.2) ∧
      h.answered.map Prod.fst <+: h.asked ∧ h.asked.length ≤ h.answered.length + 1 ∧
      (h.node.process.isSome = true → h.pc.left = none →
        h.asked = h.answered.map Prod.fst ++ h.pc.outstanding) := by
  intro h
  have hc : h.Control w p.engine _ := Host.control_run hproc evs
  obtain ⟨rest, hrest, hone, hloop⟩ := hc.order
  refine ⟨hc.asked, hc.replies, ⟨rest, hrest.symm⟩, ?_, fun halive hpc ↦ ?_⟩
  · rw [hrest, List.length_append, List.length_map]
    exact Nat.add_le_add_left hone _
  · rw [hrest, hloop halive hpc]

/-- A request that cannot be read, and one for the schema; a third has been read. -/
private def askedRun : List HostEvent :=
  [polled false true, handed [7], passed, polled true true, passed, handed [1], passed,
    polled false true, handed [0]]

private def askedHost : Host := (Host.bound sampleNode).run sampleSetting askedRun

private theorem askedHost_runs : askedHost.node.process.isSome = true ∧ askedHost.pc.left = none ∧
    askedHost.answered = [([7], .error "unparseable request: bad"),
      ([1], .schema [⟨"t", 0, []⟩] (some 8388608))] ∧
    askedHost.pc.outstanding = [[0]] := by
  decide +kernel

theorem requests_answered_in_order_three :
    Machine.outputs (Host.after sampleSetting) Host.requestsIn (Host.bound sampleNode) askedRun =
      [[7], [1], [0]] := by
  obtain ⟨hlive, hpc, hanswered, houtstanding⟩ := askedHost_runs
  obtain ⟨p, hp⟩ := Option.isSome_iff_exists.1 sampleNode_runs
  obtain ⟨hasked, -, -, -, hloop⟩ := requests_answered_in_order sampleSetting hp askedRun
  rw [← askedHost] at hasked hloop
  rw [← hasked, hloop hlive hpc, hanswered, houtstanding]
  rfl

/-! ## Leaving the loop -/

/-- The step leaves the loop: an order to stop is seen at its head, or a call fails. -/
def Host.Exits (env : Env) (h : Host) : Prop :=
  h.pc = .polling ∧ h.stop = true ∨ h.pc.Fails env

section Exits

variable {w : Setting} {p : Process} {h h' : Host} {ev : HostEvent} {env : Env}

private theorem Host.Goes.not_exits {pc : ServerPc} (hgo : h.Goes env pc) : ¬ h.Exits env := by
  cases hgo with
  | polls hpc hstop hpolled => simp [Host.Exits, hpc, hstop, ServerPc.Fails, hpolled]
  | retries hpc hstop hpolled => simp [Host.Exits, hpc, hstop, ServerPc.Fails, hpolled]
  | skips hpc hreceived => simp [Host.Exits, hpc, ServerPc.Fails, hreceived]
  | empties hpc hreceived => simp [Host.Exits, hpc, ServerPc.Fails, hreceived]
  | returns hpc hreceived => simp [Host.Exits, hpc, ServerPc.Fails, hreceived]

private theorem Host.Move.left_iff (hmove : h.Move w p env h') :
    h'.pc.left.isSome = true ↔ h.pc.left.isSome = true ∨ h.Exits env := by
  -- steps that stay in the loop, and steps outside of it
  have hstays : h.pc.left = none → ¬ h.Exits env → h'.pc.left = none →
      (h'.pc.left.isSome = true ↔ h.pc.left.isSome = true ∨ h.Exits env) := by
    intro hleft hnot hleft'
    simp [hleft, hleft', hnot]
  have houtside : h.pc.left.isSome = true → h'.pc.left.isSome = true →
      (h'.pc.left.isSome = true ↔ h.pc.left.isSome = true ∨ h.Exits env) :=
    fun hleft hleft' ↦ ⟨fun _ ↦ .inl hleft, fun _ ↦ hleft'⟩
  cases hmove with
  | idle hleft => exact houtside hleft hleft
  | goes hgo =>
    exact hstays (ServerPc.of_between hgo.between.1).2 hgo.not_exits
      (ServerPc.of_between hgo.between.2).2
  | leaves hpc hstop => exact ⟨fun _ ↦ .inr (.inl ⟨hpc, hstop⟩), fun _ ↦ rfl⟩
  | fails hfails => exact ⟨fun _ ↦ .inr (.inr hfails), fun _ ↦ rfl⟩
  | reads hpc hmsg =>
    exact hstays (by rw [hpc]; rfl) (by simp [Host.Exits, hpc, ServerPc.Fails, hmsg])
      (ServerPc.of_between (Host.between_nextDrain _ _)).2
  | asks hpc hrequest =>
    exact hstays (by rw [hpc]; rfl) (by simp [Host.Exits, hpc, ServerPc.Fails, hrequest]) rfl
  | dies hpc hrequest hanswer =>
    have hsame : h'.pc = .control := hanswer.pc.trans hpc
    exact hstays (by rw [hpc]; rfl) (by simp [Host.Exits, hpc, ServerPc.Fails, hrequest])
      (by rw [hsame]; rfl)
  | replies hpc hsent =>
    exact hstays (by rw [hpc]; rfl) (by simp [Host.Exits, hpc, ServerPc.Fails, hsent]) rfl
  | drains hpc _ hread => exact houtside (by rw [hpc]; rfl) (by rw [hread.pc, hpc]; rfl)
  | drainsLate hpc => exact houtside (by rw [hpc]; rfl) rfl
  | drained hpc => exact houtside (by rw [hpc]; rfl) rfl
  | drainFails hpc => exact houtside (by rw [hpc]; rfl) rfl
  | begins hpc => exact houtside (by rw [hpc]; rfl) rfl
  | closes hpc =>
    refine houtside (by rw [hpc]; rfl) ?_
    rcases (h.node.call env.oracle (walCall close)).2 with _ | _ | _ <;> rfl

private theorem Host.Move.stop_iff (hmove : h.Move w p env h') :
    h'.stop = true ↔ h.stop = true ∨
      ∃ q, h'.asked = h.asked ++ [q] ∧ w.wire.readRequest q = .ok .shutdown := by
  have hkept : h'.stop = h.stop → h'.asked = h.asked →
      (h'.stop = true ↔ h.stop = true ∨
        ∃ q, h'.asked = h.asked ++ [q] ∧ w.wire.readRequest q = .ok .shutdown) := by
    intro hstop hasked
    rw [hstop, hasked]
    simp
  have hanswered : ∀ {request : Bytes} {r : Option ControlReply}, Answered w p.engine env.oracle
      request { h with asked := h.asked ++ [request] } h' r →
      (h'.stop = true ↔ h.stop = true ∨
        ∃ q, h'.asked = h.asked ++ [q] ∧ w.wire.readRequest q = .ok .shutdown) := by
    intro request r hanswer
    rw [hanswer.stop, hanswer.asked]
    simp
  cases hmove with
  | reads _ _ hread => exact hkept hread.untouched.stop hread.untouched.asked
  | drains _ _ hread => exact hkept hread.untouched.stop hread.untouched.asked
  | drainsLate _ _ _ hread => exact hkept hread.untouched.stop hread.untouched.asked
  | asks _ _ hanswer =>
    rw [Host.goto]
    dsimp only
    rw [hanswer.stop, hanswer.asked]
    simp
  | dies _ _ hanswer => exact hanswered hanswer
  | _ => exact hkept rfl rfl

theorem Host.left_after (hproc : h.node.process.isSome = true) (ev : HostEvent) :
    (h.after w ev).pc.left.isSome = true ↔
      h.pc.left.isSome = true ∨ ∃ env, ev = .serve env ∧ h.Exits env := by
  obtain ⟨p, hp⟩ := Option.isSome_iff_exists.1 hproc
  have hturn : h.Turn w p ev (h.after w ev) := Host.after_turn hp ev
  generalize h.after w ev = h' at hturn
  cases hturn with
  | serves hmove => simpa using hmove.left_iff
  | _ => simp

theorem Host.stop_after (hproc : h.node.process.isSome = true) (ev : HostEvent) :
    (h.after w ev).stop = true ↔ h.stop = true ∨ .signal = ev ∨
      ∃ q, (h.after w ev).asked = h.asked ++ [q] ∧ w.wire.readRequest q = .ok .shutdown := by
  obtain ⟨p, hp⟩ := Option.isSome_iff_exists.1 hproc
  have hturn : h.Turn w p ev (h.after w ev) := Host.after_turn hp ev
  generalize h.after w ev = h' at hturn
  cases hturn with
  | serves hmove => simpa using hmove.stop_iff
  | _ => simp

end Exits

section Runs

variable {w : Setting} {lower : String → String} {d : Disk} {n : Node} {evs : List HostEvent}

private theorem Host.requestsIn_cases (h : Host) (ev : HostEvent) :
    h.requestsIn ev = [] ∨ ∃ q, h.requestsIn ev = [q] := by
  cases ev with
  | serve env =>
    rw [Host.requestsIn]
    split_ifs
    · cases env.received with
      | message bytes => exact .inr ⟨bytes, rfl⟩
      | _ => exact .inl rfl
    · exact .inl rfl
  | _ => exact .inl rfl

private theorem Host.prefix_isSome (hn : Node.Reaches w.crc lower (fun _ _ _ ↦ True) (.down d) n)
    (hproc : n.process.isSome = true) {past : List HostEvent} {ev : HostEvent}
    (hevs : ∀ ev' ∈ past ++ [ev], ¬ Crashes ev'.oracle) :
    ((Host.bound n).run w past).node.process.isSome = true :=
  Host.run_isSome past hn hproc fun ev' hev' ↦ hevs ev' (List.mem_append_left _ hev')

private theorem Host.left_run (hn : Node.Reaches w.crc lower (fun _ _ _ ↦ True) (.down d) n)
    (hproc : n.process.isSome = true) (hevs : ∀ ev ∈ evs, ¬ Crashes ev.oracle) :
    ((Host.bound n).run w evs).pc.left.isSome = true ↔
      ∃ past env rest, evs = past ++ .serve env :: rest ∧
        ((Host.bound n).run w past).Exits env := by
  induction evs using List.reverseRecOn with
  | nil => simp [Host.run, Host.bound, ServerPc.left]
  | append_singleton past ev ih =>
    have halive : ((Host.bound n).run w past).node.process.isSome = true :=
      Host.prefix_isSome hn hproc hevs
    rw [Host.run_append, Host.left_after halive,
      ih fun ev' hev' ↦ hevs ev' (List.mem_append_left _ hev')]
    constructor
    · rintro (⟨before, env, rest, rfl, hexits⟩ | ⟨env, rfl, hexits⟩)
      · exact ⟨before, env, rest ++ [ev], by simp, hexits⟩
      · exact ⟨past, env, [], rfl, hexits⟩
    · rintro ⟨before, env, rest, heq, hexits⟩
      -- the step is the last one, or one before it
      rcases List.eq_nil_or_concat rest with rfl | ⟨rest, last, rfl⟩
      · obtain ⟨rfl, hlast⟩ := List.append_inj' heq rfl
        exact .inr ⟨env, List.singleton_inj.1 hlast, hexits⟩
      · rw [List.concat_eq_append, ← List.cons_append, ← List.append_assoc] at heq
        exact .inl ⟨before, env, rest, (List.append_inj' heq rfl).1, hexits⟩

private theorem Host.stop_run {p : Process}
    (hn : Node.Reaches w.crc lower (fun _ _ _ ↦ True) (.down d) n) (hp : n.process = some p)
    (hevs : ∀ ev ∈ evs, ¬ Crashes ev.oracle) :
    ((Host.bound n).run w evs).stop = true ↔ .signal ∈ evs ∨
      ∃ q ∈ ((Host.bound n).run w evs).asked, w.wire.readRequest q = .ok .shutdown := by
  have hproc : n.process.isSome = true := by rw [hp]; rfl
  induction evs using List.reverseRecOn with
  | nil => simp [Host.run, Host.bound]
  | append_singleton past ev ih =>
    have halive : ((Host.bound n).run w past).node.process.isSome = true :=
      Host.prefix_isSome hn hproc hevs
    have hc : ((Host.bound n).run w past).Control w p.engine _ := Host.control_run hp past
    have hc' : ((Host.bound n).run w (past ++ [ev])).Control w p.engine _ := Host.control_run hp _
    have hasked : (((Host.bound n).run w past).after w ev).asked =
        ((Host.bound n).run w past).asked ++ ((Host.bound n).run w past).requestsIn ev := by
      rw [← Host.run_append, hc'.asked, hc.asked, Machine.outputs_append]
      rfl
    have hpast := ih fun ev' hev' ↦ hevs ev' (List.mem_append_left _ hev')
    rw [Host.run_append, Host.stop_after halive]
    refine (or_congr hpast Iff.rfl).trans ?_
    rw [hasked]
    simp only [List.mem_append, List.mem_singleton, List.append_cancel_left_eq]
    rcases ((Host.bound n).run w past).requestsIn_cases ev with hnone | ⟨q, hone⟩
    · simp [hnone, or_assoc, or_comm]
    · simp only [hone, List.mem_singleton, List.cons.injEq, and_true, or_and_right, exists_or,
        exists_eq_left', exists_eq_left]
      exact or_or_or_comm

end Runs

/-- **What ends the loop.** On any directory, over any run in which the file system does not stop
the process, with any bytes read from both sockets and any file operations failing: the process
lives, and the server is out of its loop exactly if at some step an order to stop was seen at the
head of the loop or a call on a socket failed. An order to stop has been given exactly if the stop
handle was used or a request to shut down was read. -/
theorem loop_left_iff (w : Setting) (lower : String → String) {d : Disk} {n : Node}
    (hn : Node.Reaches w.crc lower (fun _ _ _ ↦ True) (.down d) n) (hproc : n.process.isSome = true)
    (evs : List HostEvent) (hevs : ∀ ev ∈ evs, ¬ Crashes ev.oracle) :
    let h := (Host.bound n).run w evs
    h.node.process.isSome = true ∧
      (h.pc.left.isSome = true ↔ ∃ past env rest, evs = past ++ .serve env :: rest ∧
        ((Host.bound n).run w past).Exits env) ∧
      (h.stop = true ↔ .signal ∈ evs ∨
        ∃ q ∈ h.asked, w.wire.readRequest q = .ok .shutdown) := by
  intro h
  obtain ⟨p, hp⟩ := Option.isSome_iff_exists.1 hproc
  exact ⟨Host.run_isSome evs hn hproc hevs, Host.left_run hn hproc hevs, Host.stop_run hn hp hevs⟩

private theorem not_crashes_failing (label : Op) (k : ℕ) : ¬ Crashes (failing label k) := by
  rintro ⟨t, l, n, h⟩
  rw [failing] at h
  split_ifs at h

/-- Garbage on both sockets and a flush that fails; then a reply cannot be sent, as happens to a
request of several parts. -/
private def partsRun : List HostEvent :=
  [polled true true, handed [7], passed, .timer (failing .walSync 0) 0, handed [7], passed,
    polled false true, handed [7],
    .serve { sent := false, clock := fun _ ↦ 946684800000000 }]

private def partsHost : Host := (Host.bound sampleNode).run sampleSetting partsRun

private theorem partsHost_left :
    partsHost.pc.left = some (some zmqErr) ∧ partsHost.stop = false := by
  decide +kernel

theorem loop_left_iff_parts :
    partsHost.node.process.isSome = true ∧ partsHost.stop = false ∧
      ∃ past env rest, partsRun = past ++ .serve env :: rest ∧
        ((Host.bound sampleNode).run sampleSetting past).Exits env := by
  have hevs : ∀ ev ∈ partsRun, ¬ Crashes ev.oracle := by
    simp only [partsRun, List.forall_mem_cons]
    exact ⟨not_crashes_noFault, not_crashes_noFault, not_crashes_noFault, not_crashes_failing _ _,
      not_crashes_noFault, not_crashes_noFault, not_crashes_noFault, not_crashes_noFault,
      not_crashes_noFault, List.forall_mem_nil _⟩
  obtain ⟨hleft, hstop⟩ := partsHost_left
  obtain ⟨hlive, hiff, -⟩ :=
    loop_left_iff sampleSetting id sampleNode_reaches sampleNode_runs partsRun hevs
  rw [← partsHost] at hlive hiff
  exact ⟨hlive, hstop, hiff.1 (by rw [hleft]; rfl)⟩

/-! ## Progress -/

/-- A step of the server. -/
def HostEvent.serves : HostEvent → Bool
  | .serve _ => true
  | _ => false

namespace ServerPc

/-- On the way to a request that the poll has found, or at the poll that finds it. -/
def seeks : ServerPc → Bool
  | .polling => true
  | .draining left found => 1 ≤ left && left ≤ maxBatchesPerPoll && found
  | .control => true
  | .replying _ _ => true
  | _ => false

/-- The steps up to the next reply, that one not counted. -/
def distance : ServerPc → ℕ
  | .replying _ _ => 0
  | .control => 1
  | .draining left _ => left + 1
  | .polling => maxBatchesPerPoll + 2
  | _ => 0

end ServerPc

/-- **Requests wait.** The poll finds a request, and the call for it returns one, which is not to
shut down; no call fails, the file system does not stop the process, and nobody uses the stop
handle. What the ingest socket returns is not restricted, short of an error. -/
def Host.Asks (w : Setting) (h : Host) : HostEvent → Prop
  | .serve env => ¬ Crashes env.oracle ∧ match h.pc with
    | .polling => ∃ ingest, env.polled = .readable ingest true
    | .draining _ _ => env.received ≠ .failed
    | .control => ∃ request, env.received = .message request ∧
        w.wire.readRequest request ≠ .ok .shutdown
    | .replying _ _ => env.sent = true
    | _ => True
  | .signal => False
  | ev => ¬ Crashes ev.oracle

section Progress

variable {w : Setting} {p : Process} {h h' : Host} {ev : HostEvent} {env : Env}

private theorem Host.Asks.uncrashed (hasks : h.Asks w ev) : ¬ Crashes ev.oracle := by
  cases ev with
  | serve env => exact hasks.1
  | timer o now => exact hasks
  | commit o act => exact hasks
  | signal => exact hasks.elim

private theorem ServerPc.nextDrain_nearer {left : ℕ} {control : Bool}
    (hseeks : (ServerPc.draining left control).seeks = true) :
    (Host.nextDrain left control).seeks = true ∧
      (Host.nextDrain left control).distance + 1 ≤ (ServerPc.draining left control).distance := by
  simp only [ServerPc.seeks, Bool.and_eq_true, decide_eq_true_eq] at hseeks
  obtain ⟨⟨hleft, hle⟩, rfl⟩ := hseeks
  rw [Host.nextDrain]
  split_ifs with hone
  · exact ⟨rfl, by simp [Host.afterDrain, ServerPc.distance]; omega⟩
  · simp only [ServerPc.seeks, ServerPc.distance, Bool.and_eq_true, decide_eq_true_eq, and_true]
    omega

private theorem Host.Asks.not_fails (hasks : h.Asks w (.serve env)) (hseeks : h.pc.seeks = true) :
    ¬ h.pc.Fails env := by
  obtain ⟨-, hasks⟩ := hasks
  intro hfails
  cases hpc : h.pc with
  | polling =>
    rw [hpc] at hasks hfails
    obtain ⟨_, hfound⟩ := hasks
    rw [show env.polled = .failed from hfails] at hfound
    cases hfound
  | draining =>
    rw [hpc] at hasks hfails
    exact hasks hfails
  | control =>
    rw [hpc] at hasks hfails
    obtain ⟨_, hfound, -⟩ := hasks
    rcases hfails with hfails | hfails <;> rw [hfails] at hfound <;> cases hfound
  | replying =>
    rw [hpc] at hasks hfails
    rw [show env.sent = false from hfails] at hasks
    cases hasks
  | _ => rw [hpc] at hseeks; cases hseeks

private theorem Host.Goes.nearer {pc : ServerPc} (hgo : h.Goes env pc)
    (hasks : h.Asks w (.serve env)) (hseeks : h.pc.seeks = true) :
    pc.seeks = true ∧ pc.distance + 1 ≤ h.pc.distance := by
  obtain ⟨-, hasks⟩ := hasks
  cases hgo with
  | @polls ingest control hpc _ hpolled =>
    rw [hpc] at hasks ⊢
    obtain ⟨_, hfound⟩ := hasks
    rw [hpolled] at hfound
    obtain ⟨rfl, rfl⟩ := Polled.readable.inj hfound
    cases ingest <;> exact ⟨rfl, by simp [Host.afterDrain, ServerPc.distance]⟩
  | retries hpc _ hpolled =>
    rw [hpc] at hasks
    obtain ⟨_, hfound⟩ := hasks
    rw [hpolled] at hfound
    cases hfound
  | skips hpc =>
    rw [hpc] at hseeks ⊢
    exact ServerPc.nextDrain_nearer hseeks
  | empties hpc =>
    rw [hpc] at hseeks ⊢
    simp only [ServerPc.seeks, Bool.and_eq_true, decide_eq_true_eq] at hseeks
    obtain ⟨⟨hleft, -⟩, rfl⟩ := hseeks
    refine ⟨rfl, ?_⟩
    simp only [Host.afterDrain, ServerPc.distance]
    omega
  | returns hpc hreceived =>
    rw [hpc] at hasks
    obtain ⟨_, hfound, -⟩ := hasks
    rw [hreceived] at hfound
    cases hfound

/-- **Every step of the server brings the next reply nearer**, or sends it. -/
private theorem Host.Move.nearer (hmove : h.Move w p env h') (hasks : h.Asks w (.serve env))
    (hseeks : h.pc.seeks = true) (hstop : h.stop = false) (halive : h'.node.process.isSome = true) :
    h'.stop = false ∧ h'.pc.seeks = true ∧
      (h'.answered.length = h.answered.length + 1 ∧ h'.pc = .polling ∨
        h'.answered.length = h.answered.length ∧ h'.pc.distance + 1 ≤ h.pc.distance) := by
  have hout : ∀ {pc}, h.pc = pc → pc.seeks = false → False := by
    rintro pc rfl hnot
    rw [hnot] at hseeks
    cases hseeks
  cases hmove with
  | goes hgo =>
    obtain ⟨hnext, hlow⟩ := hgo.nearer hasks hseeks
    exact ⟨hstop, hnext, .inr ⟨rfl, hlow⟩⟩
  | reads hpc _ hread =>
    rw [hpc] at hseeks ⊢
    obtain ⟨hnext, hlow⟩ := ServerPc.nextDrain_nearer hseeks
    obtain ⟨-, hanswered, hkept⟩ := hread.untouched
    exact ⟨hkept.trans hstop, hnext, .inr ⟨congrArg List.length hanswered, hlow⟩⟩
  | asks hpc hrequest hanswer =>
    obtain ⟨-, hasks⟩ := hasks
    rw [hpc] at hasks ⊢
    obtain ⟨_, hfound, hnot⟩ := hasks
    rw [hrequest] at hfound
    obtain rfl := Recv.message.inj hfound
    refine ⟨?_, rfl, .inr ⟨congrArg List.length hanswer.answered, Nat.le_refl 1⟩⟩
    rw [Bool.eq_false_iff]
    intro hset
    rcases hanswer.stop.1 hset with hset | hshutdown
    · rw [hstop] at hset
      cases hset
    · exact hnot hshutdown
  | replies => exact ⟨hstop, rfl, .inl ⟨List.length_append, rfl⟩⟩
  | leaves _ hset =>
    rw [hstop] at hset
    cases hset
  | dies _ _ hanswer =>
    rw [hanswer.gone rfl] at halive
    cases halive
  | fails hfails => exact absurd hfails (hasks.not_fails hseeks)
  | idle hleft =>
    exfalso
    cases hpc : h.pc with
    | closing => exact hout hpc rfl
    | ending => exact hout hpc rfl
    | joining => exact hout hpc rfl
    | stopped => exact hout hpc rfl
    | _ => rw [hpc] at hleft; cases hleft
  | drains hpc => exact (hout hpc rfl).elim
  | drainsLate hpc => exact (hout hpc rfl).elim
  | drained hpc => exact (hout hpc rfl).elim
  | drainFails hpc => exact (hout hpc rfl).elim
  | begins hpc => exact (hout hpc rfl).elim
  | closes hpc => exact (hout hpc rfl).elim

/-- A server that goes on, and seeks the next request. -/
structure Host.Seeking (lower : String → String) (d : Disk) (w : Setting) (h : Host) : Prop where
  reaches : Node.Reaches w.crc lower (fun _ _ _ ↦ True) (.down d) h.node
  alive : h.node.process.isSome = true
  stop : h.stop = false
  seeks : h.pc.seeks = true

private theorem Host.Seeking.after {lower : String → String} {d : Disk} (hs : h.Seeking lower d w)
    (hasks : h.Asks w ev) : (h.after w ev).Seeking lower d w ∧
      ((h.after w ev).answered.length = h.answered.length + 1 ∧ (h.after w ev).pc = .polling ∨
        (h.after w ev).answered.length = h.answered.length ∧
          (h.after w ev).pc.distance + (if ev.serves then 1 else 0) ≤ h.pc.distance) := by
  obtain ⟨p, hp⟩ := Option.isSome_iff_exists.1 hs.alive
  have halive : (h.run w [ev]).node.process.isSome = true :=
    Host.run_isSome [ev] hs.reaches hs.alive (List.forall_mem_singleton.2 hasks.uncrashed)
  have hreaches := (h.steps_after (w := w) ev).reaches hs.reaches
  have hturn : h.Turn w p ev (h.after w ev) := Host.after_turn hp ev
  change (h.after w ev).node.process.isSome = true at halive
  generalize h.after w ev = h' at hturn halive hreaches
  cases hturn with
  | serves hmove =>
    obtain ⟨hstop, hseeks, hnear⟩ := hmove.nearer hasks hs.seeks hs.stop halive
    exact ⟨⟨hreaches, halive, hstop, hseeks⟩, hnear⟩
  | signalled => exact hasks.elim
  | _ => exact ⟨⟨hreaches, halive, hs.stop, hs.seeks⟩, .inr ⟨rfl, le_refl _⟩⟩

end Progress

end Orc
