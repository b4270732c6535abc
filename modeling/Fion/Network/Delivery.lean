import Fion.Network.Framing
import Fion.Network.PoolInvariant

/-!
# A message cut into chunks

A message reaches a connection in pieces that the peer and the network choose.
While no piece completes it, `handle_client_event` only stores what arrived
(`foldl_waiting`, by induction on the pieces).  A message that frames itself is
completed by its last piece and by no other one, so it is processed once, as a
whole, and the connection is dropped (`processed_with_last_delivery`).
-/

namespace Fion.Network

open Cpp (Bytes ascii cr lf)
open Text (find)

variable {W : Type} {regex : RegexEngine} {routes : List (Route W)}

/-- A read event, the chunk that `recv` returns for it, and what `send` would
return if there were a response. -/
structure Delivery where
  chunk : Chunk
  events : UInt32
  readable : Readable events
  send : SendResult

/-- The call that a delivery on a connection makes. -/
def Delivery.input (fd : Fd) (d : Delivery) : Pool.Input :=
  .event fd d.events (.received d.chunk) d.send

/-- What is seen of a delivery that does not complete a request. -/
def Delivery.stored (fd : Fd) (d : Delivery) : Event W := .received fd d.chunk.bytes

/-- The bytes of a sequence of deliveries. -/
def delivered (ds : List Delivery) : Bytes := ds.flatMap fun d => d.chunk.bytes

@[simp] theorem delivered_nil : delivered [] = [] := rfl

@[simp] theorem delivered_cons (d : Delivery) (ds : List Delivery) :
    delivered (d :: ds) = d.chunk.bytes ++ delivered ds := rfl

@[simp] theorem delivered_append (ds ds' : List Delivery) :
    delivered (ds ++ ds') = delivered ds ++ delivered ds' := List.flatMap_append

/-- Every delivery brings something. -/
theorem delivered_ne_nil {ds : List Delivery} (h : ds ≠ []) : delivered ds ≠ [] := by
  cases ds with
  | nil => exact absurd rfl h
  | cons d ds => simp [d.chunk.ne_nil]

namespace Pool

/-- Data that completes no request is stored, and nothing else happens. -/
theorem foldl_waiting {fd : Fd} {p : Pool W} {client : Client} (h : p.Holds fd client)
    (ds : List Delivery)
    (hwait : ∀ part, part <+: delivered ds → requestReady (client.requestBuffer ++ part) = false) :
    (ds.map (Delivery.input fd)).foldl (next regex routes) p =
      (p.store fd (client.appendRequest (delivered ds))).record (ds.map (Delivery.stored fd)) := by
  induction ds generalizing p client with
  | nil =>
      have hsame : client.appendRequest (delivered []) = client := by simp [Client.appendRequest]
      rw [hsame, store_self h]
      simp
  | cons d ds ih =>
      have hready : requestReady (client.requestBuffer ++ d.chunk.bytes) = false :=
        hwait _ (List.prefix_append _ _)
      have hheld : (p.store fd (client.appendRequest d.chunk.bytes)).Holds fd
          (client.appendRequest d.chunk.bytes) := holds_store h.registered h.owns
      have hstep : next regex routes p (d.input fd) =
          (p.store fd (client.appendRequest d.chunk.bytes)).record [d.stored fd] := by
        simp only [Delivery.input, next,
          handleClientEvent_wait regex routes h d.readable hready d.send]
        rfl
      rw [List.map_cons, List.foldl_cons, hstep]
      refine (ih (hheld.record _) fun part hpart => ?_).trans ?_
      · rw [Client.appendRequest_requestBuffer, List.append_assoc]
        exact hwait _ ((List.prefix_append_right_inj _).mpr hpart)
      · simp [store, record, ConnectionPool.put, Client.appendRequest, Delivery.stored]

variable (regex routes) in
/-- Data that completes the request gets it processed and the connection
dropped. -/
theorem next_completing {fd : Fd} {p : Pool W} {client : Client} (h : p.Holds fd client)
    (d : Delivery) (hready : requestReady (client.requestBuffer ++ d.chunk.bytes) = true) :
    ∃ calls raw w', next regex routes p (d.input fd) =
      ((p.drop fd).setWorld w').record (d.stored fd ::
        servedEvents fd (client.requestBuffer ++ d.chunk.bytes) calls raw (d.send.taken raw)) := by
  obtain ⟨raw, w', calls, -, -, hserve⟩ := handleClientEvent_serve regex
    routes h d.readable hready d.send
  refine ⟨calls, raw, w', ?_⟩
  simp only [Delivery.input, next, hserve]
  rfl

/-- The pieces in front of the last one are only stored. -/
theorem foldl_before_last {p : Pool W} {fd : Fd} {client : Client} (hheld : p.Holds fd client)
    (hempty : client.requestBuffer = []) {before after : List Delivery} (hafter : after ≠ [])
    (hmessage : SelfFramed (delivered (before ++ after))) :
    (before.map (Delivery.input fd)).foldl (next regex routes) p =
      (p.store fd (client.appendRequest (delivered before))).record
        (before.map (Delivery.stored fd)) := by
  refine foldl_waiting hheld before fun part hpart => ?_
  rw [hempty, List.nil_append]
  have hlt := List.length_pos_iff.mpr (delivered_ne_nil hafter)
  rw [delivered_append] at hmessage
  refine hmessage.not_requestReady_of_prefix (hpart.trans (List.prefix_append _ _)) ?_
  have hle := hpart.length_le
  rw [List.length_append]
  omega

/-- A message that frames itself is processed once, with its last piece, however
it was cut.  Before, the connection stays registered and data only accumulates.
After, the response was prepared and sent and the connection is gone. -/
theorem processed_with_last_delivery {p : Pool W} {fd : Fd} {client : Client}
    (hheld : p.Holds fd client) (hempty : client.requestBuffer = []) {message : Bytes}
    (hmessage : SelfFramed message) {ds : List Delivery} (hds : delivered ds = message) :
    (∀ before after, ds = before ++ after → after ≠ [] →
      let p' := (before.map (Delivery.input fd)).foldl (next regex routes) p
      p'.poller.Registered fd ∧
        p'.connectionPool.getClient fd = some (client.appendRequest (delivered before)) ∧
        p'.log = p.log ++ before.map (Delivery.stored fd)) ∧
    ∃ calls response taken,
      let p' := (ds.map (Delivery.input fd)).foldl (next regex routes) p
      p'.log = p.log ++ ds.map (Delivery.stored fd) ++
          servedEvents fd message calls response taken ∧
        p'.connectionPool.getClient fd = none ∧ ¬ p'.poller.Registered fd := by
  subst hds
  constructor
  · rintro before after rfl hafter
    simp only [foldl_before_last hheld hempty hafter hmessage]
    exact ⟨hheld.registered, by simp [store], rfl⟩
  · have hne : ds ≠ [] := by
      rintro rfl
      cases hmessage.requestReady
    obtain ⟨before, d, rfl⟩ : ∃ before d, ds = before ++ [d] :=
      ⟨ds.dropLast, ds.getLast hne, (List.dropLast_append_getLast hne).symm⟩
    have hall : delivered (before ++ [d]) = delivered before ++ d.chunk.bytes := by simp
    have hready : requestReady
        ((client.appendRequest (delivered before)).requestBuffer ++ d.chunk.bytes) = true := by
      rw [Client.appendRequest_requestBuffer, hempty, List.nil_append, ← hall]
      exact hmessage.requestReady
    have hstored : (p.store fd (client.appendRequest (delivered before))).Holds fd
        (client.appendRequest (delivered before)) := holds_store hheld.registered hheld.owns
    obtain ⟨calls, raw, w', hserve⟩ := next_completing regex routes
      (hstored.record (before.map (Delivery.stored fd))) d hready
    refine ⟨calls, raw, d.send.taken raw, ?_⟩
    rw [List.map_append, List.foldl_append,
      foldl_before_last hheld hempty (List.cons_ne_nil d []) hmessage]
    simp only [List.map_cons, List.map_nil, List.foldl_cons, List.foldl_nil]
    rw [hserve, Client.appendRequest_requestBuffer, hempty, List.nil_append, hall]
    refine ⟨?_, by simp [drop], by simp [drop]⟩
    simp [drop, store, Delivery.stored]

/-- A message with a body, cut inside its length line. -/
def cutMessage : List Delivery :=
  [⟨⟨ascii "PUT /a HTTP/1.1\r\nContent-Len", by decide, by decide⟩, PollerEvent.READ,
      ⟨by decide, by decide⟩, .wouldBlock⟩,
    ⟨⟨ascii "gth: 2\r\n\r\nhi", by decide, by decide⟩, PollerEvent.READ,
      ⟨by decide, by decide⟩, .accepted 10⟩]

theorem selfFramed_cutMessage : SelfFramed (delivered cutMessage) := by
  have hline : LengthLine ((delivered cutMessage).drop 17) 2 17 :=
    ⟨ascii " ", ascii "2", ascii "\r\nhi", by decide, List.all_eq_true.mp (by decide), by decide,
      List.all_eq_true.mp (by decide), by decide, by decide, by decide⟩
  have hend : find [cr, lf, cr, lf] (delivered cutMessage) = some 34 := by decide
  exact .sized hend (by decide) (by decide) hline (by decide) (by decide)

theorem cutMessage_processed :
    ∃ calls response taken,
      ((cutMessage.map (Delivery.input 3)).foldl (next (fun _ => .ok fun _ => none) [])
          (({ world := () } : Pool Unit).addClient 3).2).log =
        .added 3 :: cutMessage.map (Delivery.stored 3) ++
          servedEvents 3 (ascii "PUT /a HTTP/1.1\r\nContent-Length: 2\r\n\r\nhi") calls response
            taken := by
  have hheld : ((({ world := () } : Pool Unit).addClient 3).2).Holds 3 { fd := 3 } :=
    ⟨rfl, rfl, rfl⟩
  obtain ⟨-, calls, response, taken, hlog, -, -⟩ :=
    processed_with_last_delivery hheld rfl selfFramed_cutMessage rfl
  exact ⟨calls, response, taken, hlog⟩

end Pool

end Fion.Network
