import Rosbridge.Json

/-! The operations of the rosbridge protocol (`op.h`, `op.cpp`). -/

namespace Rosbridge

inductive OP where
  | ServiceAdvertiseOp
  | ServiceUnadvertiseOp
  | ServiceCallOp
  | ServiceResponseOp
  | TopicAdvertiseOp
  | TopicUnadvertiseOp
  | TopicSubscribeOp
  | TopicUnsubscribeOp
  | TopicPublishOp
  | InvalidOp
  deriving DecidableEq, Repr

open OP

def stringToOP (op : Bytes) : OP :=
  if op = ascii "advertise_service" then ServiceAdvertiseOp
  else if op = ascii "unadvertise_service" then ServiceUnadvertiseOp
  else if op = ascii "call_service" then ServiceCallOp
  else if op = ascii "service_response" then ServiceResponseOp
  else if op = ascii "advertise" then TopicAdvertiseOp
  else if op = ascii "unadvertise" then TopicUnadvertiseOp
  else if op = ascii "publish" then TopicPublishOp
  else if op = ascii "subscribe" then TopicSubscribeOp
  else if op = ascii "unsubscribe" then TopicUnsubscribeOp
  else InvalidOp

def isTopicOP (op : OP) : Bool :=
  op ∈ [TopicAdvertiseOp, TopicUnadvertiseOp, TopicSubscribeOp, TopicUnsubscribeOp, TopicPublishOp]

def isServiceOP (op : OP) : Bool :=
  op ∈ [ServiceAdvertiseOp, ServiceUnadvertiseOp, ServiceCallOp, ServiceResponseOp]

/-- `std::to_string(OP)`; its `throw` after the switch is reached by no enumerator. -/
def OP.to_string : OP → Bytes
  | ServiceAdvertiseOp => ascii "advertise_service"
  | ServiceUnadvertiseOp => ascii "unadvertise_service"
  | ServiceCallOp => ascii "call_service"
  | ServiceResponseOp => ascii "service_response"
  | TopicAdvertiseOp => ascii "advertise"
  | TopicUnadvertiseOp => ascii "unadvertise"
  | TopicSubscribeOp => ascii "subscribe"
  | TopicUnsubscribeOp => ascii "unsubscribe"
  | TopicPublishOp => ascii "publish"
  | InvalidOp => ascii "_"

/-- The two tables agree: every operation, the dummy one included, is read back. -/
theorem stringToOP_to_string (op : OP) : stringToOP op.to_string = op := by
  cases op <;> decide

end Rosbridge
