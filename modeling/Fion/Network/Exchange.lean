import Fion.Network.Answers
import Fion.Network.Delivery
import Fion.Network.EdgeTriggered
import Fion.Network.Isolation
import Fion.Network.Loops
import Fion.Network.RequestFormat
import Fion.Network.ResponseFormat

/-!
# One request and its answer

A peer encodes a request, the network cuts the bytes into pieces, and one of the loops of
the server gets the pieces among the events of other connections.  What comes of it is put
together here from the layers below: the pieces are only stored until the last one has come
(`stored_among_others`), the whole message decodes to the request that was encoded, the
user code of that request runs on it, and the bytes of the response are cut back into its
headers and its body.  This is first said of a pool (`answers_message`), and then of a
server with its threads (`message_answered`), which behaves like a pool.
-/

namespace Fion.Network

open Cpp (Bytes ascii cr lf)
open Text (find)
open Http (Request Response)
open Machine (AlwaysStep)

variable {W : Type} {regex : RegexEngine} {routes : List (Route W)}

/-! ## The response -/

variable (regex routes) in
/-- The response to a request in a state of the user code: the one that `dispatch`
yields, or the fixed one when that is none or cannot be printed. -/
def AnswerTo (request : Request) (w : W) (response : Response) : Prop :=
  (dispatch regex routes request w).1 = .ok response ∨
    response = internalServerError ∧ ∀ own raw,
      (dispatch regex routes request w).1 = .ok own → own.toRawResponse ≠ .ok raw

/-- A message is cut apart into the parts of its request. -/
theorem decodes_encode (m : Message) :
    ∃ block, splitRequest m.encode = .ok (.parts m.startLine block m.body) ∧
      Request.make m.startLine block m.body = .ok m.request := by
  obtain ⟨block, hsplit, hblock⟩ := m.splitRequest_encode
  refine ⟨block, hsplit, ?_⟩
  rw [Request.make, m.parseStartLine_startLine]
  simp only [Cpp.rethrowInvalid_ok, Cpp.ok_bind, hblock]
  rfl

/-- So the response to it is the one to its request. -/
theorem respond_encode (m : Message) (w : W) :
    respond regex routes m.encode w = dispatch regex routes m.request w := by
  obtain ⟨block, hsplit, hmake⟩ := decodes_encode m
  exact respond_of_decodes ⟨_, block, m.body, hsplit, hmake⟩ regex routes w

/-- Every answer asks for the connection to be closed. -/
theorem closes_of_answerTo {m : Message} {w : W} {response : Response}
    (h : AnswerTo regex routes m.request w response) : Closes response := by
  rcases h with hown | ⟨rfl, -⟩
  · obtain ⟨block, hsplit, -⟩ := decodes_encode m
    rw [← respond_encode m w] at hown
    rcases handlerReturns_of_respond hsplit hown with ⟨own, -, rfl⟩ | rfl
    · exact closes_withClose own
    · exact closes_notFound
  · exact closes_internalServerError

variable (regex routes) in
/-- A client that holds an encoded request gets an answer to that request, and the user
code of that request runs. -/
theorem processRequest_message {m : Message} {client : Client}
    (hclient : client.requestBuffer = m.encode) (w : W) :
    ∃ response raw w', response.toRawResponse = .ok raw ∧
      AnswerTo regex routes m.request w response ∧
      processRequest regex routes client w =
        (.ok (client.setResponse raw), w', (dispatch regex routes m.request w).2.2) := by
  have hrespond : respond regex routes m.encode w = dispatch regex routes m.request w :=
    respond_encode m w
  rw [← hclient] at hrespond
  obtain ⟨response, raw, w', calls, hraw, hprocess, hresponse⟩ :=
    processRequest_cases regex routes client w
  have hcalls : (processRequest regex routes client w).2.2 =
      (respond regex routes client.requestBuffer w).2.2 := processRequest_calls client w
  rw [hprocess, hrespond] at hcalls
  rw [hrespond] at hresponse
  exact ⟨response, raw, w', hraw, hresponse, by rw [hprocess, ← hcalls]⟩

namespace Pool

/-! ## Among the calls for other connections -/

/-- Calls for other connections leave this one as it is. -/
theorem foldl_of_others {p : Pool W} (h : p.Consistent) {fd : Fd} {as : List Input}
    (has : AlwaysStep (next regex routes) Admits p as) (hnone : as.filter (Input.isFor fd) = []) :
    let q := as.foldl (next regex routes) p
    q.connectionPool.getClient fd = p.connectionPool.getClient fd ∧
      seen q.log fd = seen p.log fd := by
  induction as generalizing p with
  | nil => exact ⟨rfl, rfl⟩
  | cons a as ih =>
      have hother : a.isFor fd = false := by
        cases ha : a.isFor fd with
        | true => rw [List.filter_cons_of_pos ha] at hnone; cases hnone
        | false => rfl
      rw [List.filter_cons_of_neg (Bool.eq_false_iff.mp hother)] at hnone
      obtain ⟨hclient, hseen⟩ := next_of_ne regex routes h has.1
        (of_decide_eq_false hother)
      obtain ⟨hclient', hseen'⟩ := ih (consistent_next regex routes h has.1) has.2 hnone
      exact ⟨hclient'.trans hclient, hseen'.trans hseen⟩

/-- Pieces that complete no request are only stored, whatever calls for other
connections come between them. -/
theorem stored_among_others {p : Pool W} (h : p.Consistent) {fd : Fd} {client : Client}
    (hget : p.connectionPool.getClient fd = some client) {as : List Input}
    (has : AlwaysStep (next regex routes) Admits p as) {ds : List Delivery}
    (hown : as.filter (Input.isFor fd) = ds.map (Delivery.input fd))
    (hwait : ∀ part, part <+: delivered ds → requestReady (client.requestBuffer ++ part) = false) :
    let q := as.foldl (next regex routes) p
    q.Consistent ∧
      q.connectionPool.getClient fd = some (client.appendRequest (delivered ds)) ∧
      seen q.log fd = seen p.log fd ++ ds.map (Delivery.stored fd) := by
  induction as generalizing p client ds with
  | nil =>
      cases ds with
      | nil => simpa [Client.appendRequest] using ⟨h, hget⟩
      | cons d ds => cases hown
  | cons a as ih =>
      have hnext : (next regex routes p a).Consistent := consistent_next regex routes h has.1
      cases ha : a.isFor fd with
      | false =>
          rw [List.filter_cons_of_neg (Bool.eq_false_iff.mp ha)] at hown
          obtain ⟨hclient, hseen⟩ := next_of_ne regex routes h has.1
            (of_decide_eq_false ha)
          have hrest := ih hnext (hclient.trans hget) has.2 hown hwait
          rw [hseen] at hrest
          exact hrest
      | true =>
          rw [List.filter_cons_of_pos ha] at hown
          cases ds with
          | nil => cases hown
          | cons d ds =>
              obtain ⟨rfl, hrest⟩ := List.cons.inj hown
              have hstep : next regex routes p (d.input fd) =
                  (p.store fd (client.appendRequest d.chunk.bytes)).record [d.stored fd] :=
                congrArg Prod.snd (handleClientEvent_wait regex routes (h.holds hget) d.readable
                  (hwait _ (List.prefix_append _ _)) d.send)
              have hget' : (next regex routes p (d.input fd)).connectionPool.getClient fd =
                  some (client.appendRequest d.chunk.bytes) := by
                rw [hstep]
                exact ConnectionPool.getClient_put_self _ _ _
              obtain ⟨hq, hclient, hseen⟩ := ih hnext hget' has.2 hrest fun part hpart => by
                rw [Client.appendRequest_requestBuffer, List.append_assoc]
                exact hwait _ ((List.prefix_append_right_inj _).mpr hpart)
              refine ⟨hq, hclient.trans ?_, hseen.trans ?_⟩
              · simp [Client.appendRequest]
              · rw [hstep]
                show seen (p.log ++ [d.stored fd]) fd ++ _ = _
                rw [seen_append_of_fd (by simp [Delivery.stored, Event.fd]), List.append_assoc,
                  List.map_cons, List.singleton_append]

/-! ## The exchange -/

/-- A peer sends an encoded request, cut into pieces in any way, and its pieces come
between any calls for other connections.  Then, in some state of the user code, exactly
the user code of that request ran on it, the answer to that request was prepared, the
socket was given its bytes and the connection was closed; nothing else was seen of the
connection.  When the headers of the response fit on their lines, the bytes are cut back
into these headers and the body. -/
theorem answers_message {p : Pool W} (h : p.Consistent) {fd : Fd} {client : Client}
    (hget : p.connectionPool.getClient fd = some client) (hempty : client.requestBuffer = [])
    {m : Message} (hframed : SelfFramed m.encode) {pieces : List Delivery} {last : Delivery}
    (hpieces : delivered (pieces ++ [last]) = m.encode) {as : List Input}
    (has : AlwaysStep (next regex routes) Admits p as)
    (hown : as.filter (Input.isFor fd) = (pieces ++ [last]).map (Delivery.input fd)) :
    ∃ w response raw, AnswerTo regex routes m.request w response ∧
      response.toRawResponse = .ok raw ∧ Closes response ∧
      (Printable response.headers → SplitsBack response raw) ∧
      let q := as.foldl (next regex routes) p
      q.connectionPool.getClient fd = none ∧
        seen q.log fd = seen p.log fd ++ (pieces ++ [last]).map (Delivery.stored fd) ++
          servedEvents fd m.encode (dispatch regex routes m.request w).2.2 raw
            (last.send.taken raw) := by
  -- the run up to the last piece, that piece, and the calls behind it
  rw [List.map_append, List.filter_eq_append_iff] at hown
  obtain ⟨before, rest, rfl, hbefore, hrest⟩ := hown
  rw [List.map_singleton, List.filter_eq_cons_iff] at hrest
  obtain ⟨others, after, rfl, hothers, -, hafter⟩ := hrest
  rw [← List.append_assoc] at has ⊢
  obtain ⟨hasBefore, hadm, hasAfter⟩ := Machine.alwaysStep_append.mp has
  have hownBefore : (before ++ others).filter (Input.isFor fd) =
      pieces.map (Delivery.input fd) := by
    rw [List.filter_append, hbefore, List.filter_eq_nil_iff.mpr hothers, List.append_nil]
  have hall : delivered pieces ++ last.chunk.bytes = m.encode := by simpa using hpieces
  have hwait : ∀ part, part <+: delivered pieces →
      requestReady (client.requestBuffer ++ part) = false := by
    intro part hpart
    rw [hempty, List.nil_append]
    refine hframed.not_requestReady_of_prefix (hpart.trans ⟨_, hall⟩) ?_
    rw [← hall, List.length_append]
    have hpos := List.length_pos_iff.mpr last.chunk.ne_nil
    have hle := hpart.length_le
    omega
  obtain ⟨hp, hclient, hseen⟩ := stored_among_others h hget hasBefore hownBefore hwait
  have hrun : (before ++ others ++ last.input fd :: after).foldl (next regex routes) p =
      after.foldl (next regex routes)
        (next regex routes ((before ++ others).foldl (next regex routes) p) (last.input fd)) := by
    rw [List.foldl_append, List.foldl_cons]
  rw [hrun]
  generalize (before ++ others).foldl (next regex routes) p = p' at *
  -- the last piece completes the message
  have hbuffer : (client.appendRequest (delivered pieces)).requestBuffer ++ last.chunk.bytes =
      m.encode := by
    rw [Client.appendRequest_requestBuffer, hempty, List.nil_append, hall]
  obtain ⟨raw, w', calls, -, hproc, hserve⟩ := handleClientEvent_serve regex routes
    (hp.holds hclient) last.readable (hbuffer ▸ hframed.requestReady) last.send
  obtain ⟨response, raw', w'', hraw, hanswer, hprocess⟩ := processRequest_message regex routes
    (show (((client.appendRequest (delivered pieces)).appendRequest
      last.chunk.bytes).setState .processing).requestBuffer = m.encode from hbuffer) p'.world
  rw [hprocess] at hproc
  obtain ⟨hsame, hrest⟩ := Prod.mk.inj hproc
  obtain rfl : raw' = raw := congrArg Client.responseBuffer (Except.ok.inj hsame)
  obtain ⟨-, rfl⟩ := Prod.mk.inj hrest
  rw [hbuffer] at hserve
  have hstep : next regex routes p' (last.input fd) = ((p'.drop fd).setWorld w').record
      (last.stored fd :: servedEvents fd m.encode (dispatch regex routes m.request p'.world).2.2
        raw' (last.send.taken raw')) := congrArg Prod.snd hserve
  obtain ⟨hgone, hquiet⟩ := foldl_of_others (consistent_next regex routes hp hadm) hasAfter hafter
  refine ⟨p'.world, response, raw', hanswer, hraw, closes_of_answerTo hanswer,
    (splitsBack_iff hraw).mpr, hgone.trans ?_, hquiet.trans ?_⟩
  · rw [hstep]
    simp [Pool.drop]
  · rw [hstep]
    refine (seen_append_of_fd (fun e he => (fd_of_mem_served he).1) p'.log).trans ?_
    rw [hseen]
    simp [Delivery.stored]

end Pool

/-! ## A server with its threads -/

/-- The history of a connection is made of what was seen of its descriptor. -/
theorem history_seen (log : List (Event W)) (fd : Fd) :
    history (seen log fd) fd = history log fd := by
  rw [history, history, seen, List.foldl_filter]
  congr 1
  funext events e
  by_cases hfd : e.fd = fd
  · simp [hfd]
  · simp [Event.note, hfd]

namespace RunningServer

variable {n : Nat}

/-- A connection is accepted by a server, and its peer sends an encoded request, cut into
pieces in any way.  However the steps of the threads are mixed, and whatever the other
connections do: in some state of the user code, exactly the user code of that request ran
on it, the answer to that request was prepared, the socket was given its bytes and the
connection was closed; nothing else happened to the connection.  When the headers of the
response fit on their lines, the bytes are cut back into these headers and the body. -/
theorem message_answered (hn : 0 < n) (w : W) {steps : List (ServerStep n)}
    (hsteps : AlwaysStep (next regex routes) Admits (start w : RunningServer W n) steps)
    {fd : Fd} {m : Message} (hframed : SelfFramed m.encode) {pieces : List Delivery}
    {last : Delivery} (hpieces : delivered (pieces ++ [last]) = m.encode)
    {earlier later : List Pool.Input}
    (hcalls : poolCalls regex routes (start w) steps = earlier ++ .addClient fd :: later)
    (hown : later.filter (Pool.Input.isFor fd) = (pieces ++ [last]).map (Delivery.input fd)) :
    ∃ w' response raw, AnswerTo regex routes m.request w' response ∧
      response.toRawResponse = .ok raw ∧ Closes response ∧
      (Printable response.headers → SplitsBack response raw) ∧
      let s := steps.foldl (next regex routes) (start w)
      (∀ i, s.fleet.entry i fd = none) ∧
        history s.fleet.log fd = (pieces ++ [last]).map (Delivery.stored fd) ++
          servedEvents fd m.encode (dispatch regex routes m.request w').2.2 raw
            (last.send.taken raw) := by
  obtain ⟨hpool, -, hshows⟩ := shows_run hn w hsteps
  rw [hcalls] at hpool hshows
  obtain ⟨hearlier, hadd, hlater⟩ := Machine.alwaysStep_append.mp hpool
  rw [List.foldl_append, List.foldl_cons] at hshows
  have hkept : Machine.Always (Pool.next regex routes) Pool.Consistent { world := w } earlier := by
    refine Machine.always_of_ok (fun p input (hp : p.Consistent) hinput _ => ?_) ?_ hearlier
      hearlier
    · exact Pool.consistent_next regex routes hp hinput
    · exact Pool.consistent_start w
  have hp := hkept.last
  generalize earlier.foldl (Pool.next regex routes) { world := w } = p at *
  have hnew : p.next regex routes (.addClient fd) = p.enroll fd :=
    congrArg Prod.snd (Pool.addClient_of_new hadd.1 hadd.2 (hp.not_registered hadd.2))
  have hconsistent := Pool.consistent_next regex routes hp hadd
  rw [hnew] at hconsistent hlater hshows
  obtain ⟨w', response, raw, hanswer, hraw, hcloses, hprint, hgone, hseen⟩ :=
    Pool.answers_message hconsistent (ConnectionPool.getClient_put_self _ _ _) rfl hframed hpieces
      hlater hown
  refine ⟨w', response, raw, hanswer, hraw, hcloses, hprint, fun i => ?_, ?_⟩
  · cases hentry : (steps.foldl (next regex routes) (start w)).fleet.entry i fd with
    | none => rfl
    | some client =>
        rw [hshows.held i fd client hentry] at hgone
        cases hgone
  · rw [hshows.log, ← history_seen, hseen, List.append_assoc, history_append_of_fd ?_, history_seen]
    · rw [show (p.enroll fd).log = p.log ++ [.added fd] from rfl, history_added, List.nil_append]
    · intro e he
      rcases List.mem_append.mp he with he | he
      · obtain ⟨d, -, rfl⟩ := List.mem_map.mp he
        exact ⟨rfl, rfl⟩
      · exact fd_of_mem_served (List.mem_cons_of_mem (.received fd []) he)

/-- A request without headers and without a body. -/
def plainMessage : Message :=
  { Message.bareMessage with
    methodName := ascii "GET", method := .get, body := [], method_accepted := rfl }

/-- Its bytes in two pieces. -/
def plainPieces : List Delivery × Delivery :=
  ([⟨⟨ascii "GET", by decide, by decide⟩, PollerEvent.READ, Net.readable_read, .wouldBlock⟩],
    ⟨⟨ascii " /a HTTP/1.1\r\n\r\n", by decide, by decide⟩, PollerEvent.READ,
      Net.readable_read, .accepted 9⟩)

/-- Three pools, and a run of the first loop in which the accept thread hands out another
connection. -/
def plainRun : List (ServerStep 3) :=
  [.exchange 0, .load 0, .accept 3, .poll 0 (.ready [⟨3, PollerEvent.READ⟩]), .accept 4] ++
    plainPieces.1.map (fun d => .callback 0 (.received d.chunk) d.send) ++
    [.load 0, .poll 0 (.ready [⟨3, PollerEvent.READ⟩]),
      .callback 0 (.received plainPieces.2.chunk) plainPieces.2.send]

theorem plainRun_admitted : AlwaysStep (next (fun _ => .ok fun _ => none) []) Admits
    (start () : RunningServer Unit 3) plainRun := by
  refine ⟨rfl, rfl, ⟨by decide, by decide⟩, ⟨rfl, ?_⟩, ⟨by decide, by decide⟩,
    List.cons_ne_nil _ _, rfl, ⟨rfl, ?_⟩, List.cons_ne_nil _ _, trivial⟩ <;>
  · rintro events hevents
    obtain rfl := WaitResult.ready.inj hevents
    exact ⟨by decide, by decide⟩

theorem plainMessage_answered :
    ∃ w response raw, AnswerTo (fun _ => .ok fun _ => none) [] plainMessage.request w response ∧
      response.toRawResponse = .ok raw ∧
      history (plainRun.foldl (next (fun _ => .ok fun _ => none) []) (start ())).fleet.log 3 =
        (plainPieces.1 ++ [plainPieces.2]).map (Delivery.stored 3) ++
          servedEvents 3 plainMessage.encode
            (dispatch (fun _ => .ok fun _ => none) [] plainMessage.request w).2.2 raw
            (plainPieces.2.send.taken raw) := by
  have hframed : SelfFramed plainMessage.encode :=
    .bare (show find [cr, lf, cr, lf] plainMessage.encode = some 15 by decide) (by decide)
      (by decide)
  have hpieces : delivered (plainPieces.1 ++ [plainPieces.2]) = plainMessage.encode := by decide
  have hcalls : poolCalls (fun _ => .ok fun _ => none) [] (start () : RunningServer Unit 3)
      plainRun = [] ++ .addClient 3 :: .addClient 4 ::
        (plainPieces.1 ++ [plainPieces.2]).map (Delivery.input 3) := rfl
  obtain ⟨w, response, raw, hanswer, hraw, -, -, -, hhistory⟩ :=
    message_answered (by decide) () plainRun_admitted hframed hpieces hcalls rfl
  exact ⟨w, response, raw, hanswer, hraw, hhistory⟩

end RunningServer

end Fion.Network
