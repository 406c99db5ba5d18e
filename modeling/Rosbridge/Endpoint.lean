import Rosbridge.Serializer
import Rosbridge.Talk.System

/-!
# The endpoints (`publisher.cpp`, `subscriber.cpp`, `serviceserver.cpp`, `serviceclient.cpp`)

What the constructors and destructors ask of the talker queue with index `i`. A destructor that
joins a listener thread does so between its push and `abandon`, which is no step of the sender.
-/

namespace Rosbridge

open Talk

structure Publisher where
  topic : Bytes
  type : Bytes
  queue_size : Int32 := 1

namespace Publisher

def attach (p : Publisher) (id : Bytes) : Event Serializer :=
  .attach p.queue_size (.topicAdvertise p.topic p.type id)

def publish (p : Publisher) (i : Nat) (json : Object) (id : Bytes) : Event Serializer :=
  .push i (.topicMessage p.topic json id)

def destroy (p : Publisher) (i : Nat) (id : Bytes) : List (Event Serializer) :=
  [.destroy i (.topicUnadvertise p.topic id), .abandon i]

end Publisher

structure Subscriber where
  topic : Bytes
  type : Bytes
  queue_size : Int32 := 10

namespace Subscriber

/-- The talker queue has a size of its own; `queue_size` goes into the message. -/
def attach (s : Subscriber) (id : Bytes) : Event Serializer :=
  .attach 10 (.topicSubscribe s.topic s.type s.queue_size id)

def destroy (s : Subscriber) (i : Nat) (id : Bytes) : List (Event Serializer) :=
  [.destroy i (.topicUnsubscribe s.topic id), .abandon i]

end Subscriber

structure ServiceServer where
  service : Bytes
  type : Bytes
  queue_size : Int32 := 100

namespace ServiceServer

def attach (s : ServiceServer) (id : Bytes) : Event Serializer :=
  .attach s.queue_size (.serviceAdvertise s.service s.type id)

def respond (s : ServiceServer) (i : Nat) (response : Object) (id : Bytes) : Event Serializer :=
  .push i (.serviceResponse s.service response true id)

def destroy (s : ServiceServer) (i : Nat) (id : Bytes) : List (Event Serializer) :=
  [.destroy i (.serviceUnadvertise s.service id), .abandon i]

end ServiceServer

structure ServiceClient where
  service : Bytes
  queue_size : Int32 := 1000

namespace ServiceClient

def attach (c : ServiceClient) (id : Bytes) : Event Serializer :=
  .attach c.queue_size (.new .InvalidOp id)

def request (c : ServiceClient) (i : Nat) (input : Object) (id : Bytes) : Event Serializer :=
  .push i (.serviceRequest c.service input id)

def destroy (_ : ServiceClient) (i : Nat) : List (Event Serializer) := [.abandon i]

end ServiceClient

end Rosbridge
