import Rosbridge.Listen.Consumer

/-!
# Searching a queue (`ListenerQueue::nextById`)

The predicate of the search calls `Unserializer::id` on the queued messages themselves, up to the
first that has the identifier, and `nextById` copies that one. What a search finds depends only on
what `operator[]` reads of the queued messages, and a search does not change that.
-/

namespace Rosbridge

open Unserializer

variable {M : Type}

/-- `std::find_if`, for a predicate that can change the element it looks at, and throw. -/
def find_if (cond : M → Except Exn Bool × M) : List M → Except Exn (Option M) × List M
  | [] => (.ok none, [])
  | x :: rest =>
    match cond x with
    | (.error e, y) => (.error e, y :: rest)
    | (.ok true, y) => (.ok (some y), y :: rest)
    | (.ok false, y) => ((find_if cond rest).1, y :: (find_if cond rest).2)

def Unserializer.reads (u : Unserializer) : Bytes → Value := u.json.read

theorem reads_of_sameReads {u v : Unserializer} (same : SameReads u v) : v.reads = u.reads := funext same

namespace Unserializer

theorem typeOf_congr {u v : Unserializer} (same : u.reads = v.reads) : u.typeOf = v.typeOf := by
  have read (key : Bytes) : u.json.read key = v.json.read key := congrFun same key
  simp only [typeOf, read]

theorem idOf_congr {u v : Unserializer} (same : u.reads = v.reads) : u.idOf = v.idOf := by
  have read (key : Bytes) : u.json.read key = v.json.read key := congrFun same key
  simp only [idOf, read]

theorem resultOf_congr {u v : Unserializer} (same : u.reads = v.reads) : u.resultOf = v.resultOf := by
  have read (key : Bytes) : u.json.read key = v.json.read key := congrFun same key
  simp only [resultOf, guardedOf, typeOf_congr same, read]

theorem payloadOf_congr {u v : Unserializer} (same : u.reads = v.reads) : u.payloadOf = v.payloadOf := by
  have read (key : Bytes) : u.json.read key = v.json.read key := congrFun same key
  simp only [payloadOf, typeOf_congr same, read]

end Unserializer

namespace Listen

def asked (x : Letter) : Letter := { x with msg := (x.msg.id).2 }

def hasId (id : Bytes) (x : Letter) : Except Exn Bool × Letter :=
  ((x.msg.id).1.map fun text => text = id, asked x)

theorem hasId_eq (id : Bytes) (x : Letter) : hasId id x = (.ok (x.msg.idOf = id), asked x) := by
  have value : (x.msg.id).1 = .ok x.msg.idOf := (id_yields x.msg).1
  rw [hasId, value]
  rfl

theorem reads_asked (x : Letter) : (asked x).msg.reads = x.msg.reads :=
  reads_of_sameReads (id_yields x.msg).2

theorem find_if_hasId (id : Bytes) (q : List Letter) :
    (find_if (hasId id) q).1 = .ok ((q.find? fun x => x.msg.idOf = id).map asked) ∧
      (find_if (hasId id) q).2.map (fun x => x.msg.reads) = q.map fun x => x.msg.reads := by
  induction q with
  | nil => exact ⟨rfl, rfl⟩
  | cons x rest ih =>
    rw [find_if, hasId_eq, List.find?_cons]
    by_cases found : x.msg.idOf = id
    · simp [found, reads_asked]
    · simp [found, ih, reads_asked]

end Listen

namespace ListenerQueue

open Listen

def nextById (id : Bytes) (l : ListenerQueue Letter) :
    Except Exn (Option Letter) × ListenerQueue Letter :=
  let (found, q) := find_if (hasId id) l.q
  (found, { l with q := q })

theorem nextById_found (id : Bytes) (l : ListenerQueue Letter) :
    (l.nextById id).1 = .ok ((l.q.find? fun x => x.msg.idOf = id).map asked) :=
  (find_if_hasId id l.q).1

theorem nextById_reads (id : Bytes) (l : ListenerQueue Letter) :
    (l.nextById id).2.q.map (fun x => x.msg.reads) = l.q.map fun x => x.msg.reads :=
  (find_if_hasId id l.q).2

end ListenerQueue

end Rosbridge
