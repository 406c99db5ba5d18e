import Rosbridge.Reading

/-!
# Removing from the middle of a queue (`ListenerQueue::popById`)

`std::remove_if` moves the elements that stay to the front and returns an iterator behind them; the
elements from there on have to be erased by the caller. `popById` erases the one that the iterator
is at.
-/

namespace Rosbridge

open Unserializer Listen

variable {M : Type}

/-- The loop of `std::remove_if`. In front of what it has not looked at yet stand the elements that
stay, and then what assignments have not overwritten. -/
def remove_if.loop (cond : M → Except Exn Bool × M) (kept stale : List M) :
    List M → Except Exn Nat × List M
  | [] => (.ok kept.length, kept ++ stale)
  | x :: rest =>
    match cond x with
    | (.error e, y) => (.error e, kept ++ stale ++ y :: rest)
    | (.ok true, y) => loop cond kept (stale ++ [y]) rest
    -- The element is assigned to the first of the stale ones, which is itself if there are none.
    | (.ok false, y) => loop cond (kept ++ [y]) (stale ++ [y]).tail rest

/-- `std::remove_if`: the position of the iterator, and the container. -/
def remove_if (cond : M → Except Exn Bool × M) (q : List M) : Except Exn Nat × List M :=
  remove_if.loop cond [] [] q

/-- `std::list::erase` of the end iterator is undefined. -/
def erase (q : List M) (iter : Nat) : Option (List M) :=
  if iter < q.length then some (q.eraseIdx iter) else none

section RemoveIf

variable {p : M → Bool} {f : M → M}

/-- What a predicate `p` that changes its argument by `f` leaves in the container. -/
def staying (p : M → Bool) (f : M → M) (q : List M) : List M := (q.filter fun x => !p x).map f

theorem length_staying (q : List M) : (staying p f q).length + q.countP p = q.length := by
  have counted := List.length_eq_countP_add_countP p (l := q)
  rw [staying, List.length_map, ← List.countP_eq_length_filter, Nat.add_comm, counted]
  simp

theorem remove_if_loop {cond : M → Except Exn Bool × M} (total : ∀ x, cond x = (.ok (p x), f x))
    (before rest : List M) :
    remove_if.loop cond (staying p f before) ((before.map f).drop (staying p f before).length) rest =
      (.ok (staying p f (before ++ rest)).length, staying p f (before ++ rest) ++
        ((before ++ rest).map f).drop (staying p f (before ++ rest)).length) := by
  induction rest generalizing before with
  | nil => rw [remove_if.loop, List.append_nil]
  | cons x rest ih =>
    have next := ih (before ++ [x])
    have shorter : (staying p f before).length ≤ (before.map f).length := by
      rw [List.length_map, ← length_staying (p := p) (f := f) before]
      exact Nat.le_add_right _ _
    rw [List.append_assoc, List.singleton_append, List.map_append, List.map_singleton] at next
    rw [remove_if.loop, total]
    cases removed : p x with
    | true =>
      have same : staying p f (before ++ [x]) = staying p f before := by simp [staying, removed]
      rw [same, List.drop_append_of_le_length shorter] at next
      exact next
    | false =>
      have more : staying p f (before ++ [x]) = staying p f before ++ [f x] := by simp [staying, removed]
      rw [more, List.length_append, List.length_singleton, ← List.tail_drop,
        List.drop_append_of_le_length shorter] at next
      exact next

/-- What stays is moved to the front; behind it is what was there before. -/
theorem remove_if_eq {cond : M → Except Exn Bool × M} (total : ∀ x, cond x = (.ok (p x), f x))
    (q : List M) :
    remove_if cond q = (.ok (staying p f q).length,
      staying p f q ++ (q.map f).drop (staying p f q).length) := by
  exact remove_if_loop total [] q

/-- Only one element is erased behind what stays. -/
theorem erase_remove_if (q : List M) :
    erase (staying p f q ++ (q.map f).drop (staying p f q).length) (staying p f q).length =
      if q.countP p = 0 then none
      else some (staying p f q ++ (q.map f).drop ((staying p f q).length + 1)) := by
  have count := length_staying (p := p) (f := f) q
  have length : (staying p f q ++ (q.map f).drop (staying p f q).length).length = q.length := by
    rw [List.length_append, List.length_drop, List.length_map]
    omega
  rw [erase, length]
  by_cases none_found : q.countP p = 0
  · rw [if_pos none_found, if_neg (by omega)]
  · rw [if_neg none_found, if_pos (by omega), List.eraseIdx_append_of_length_le (Nat.le_refl _),
      Nat.sub_self, List.eraseIdx_zero, List.tail_drop]

end RemoveIf

namespace ListenerQueue

/-- Nothing where the behaviour is undefined, otherwise what is thrown and the queue. -/
def popById (id : Bytes) (l : ListenerQueue Letter) : Option (Except Exn Unit × ListenerQueue Letter) :=
  match remove_if (hasId id) l.q with
  | (.error e, q) => some (.error e, { l with q := q })
  | (.ok iter, q) => (erase q iter).map fun q => (.ok (), { l with q := q })

def others (id : Bytes) (l : ListenerQueue Letter) : List Letter :=
  l.q.filter fun x => x.msg.idOf ≠ id

def occurrences (id : Bytes) (l : ListenerQueue Letter) : Nat := l.q.countP fun x => x.msg.idOf = id

/-- Exactly the messages without the identifier are left, as `left` says, and no search sees a
difference but the one for the identifier. -/
def Removes (left : Letter → Letter) (id : Bytes) (l : ListenerQueue Letter) : Prop :=
  ∃ l', l.popById id = some (.ok (), l') ∧ l'.q = (l.others id).map left ∧
    (l'.nextById id).1 = .ok none ∧ ∀ other, other ≠ id → (l'.nextById other).1 = (l.nextById other).1

theorem staying_hasId (id : Bytes) (l : ListenerQueue Letter) :
    staying (fun x => decide (x.msg.idOf = id)) asked l.q = (l.others id).map asked := by
  simp [staying, others]

theorem length_others (id : Bytes) (l : ListenerQueue Letter) :
    (l.others id).length + l.occurrences id = l.q.length := by
  have count := length_staying (p := fun x => decide (x.msg.idOf = id)) (f := asked) l.q
  rwa [staying_hasId, List.length_map] at count

theorem popById_eq (id : Bytes) (l : ListenerQueue Letter) :
    l.popById id =
      if l.occurrences id = 0 then none
      else some (.ok (), { l with
        q := (l.others id).map asked ++ (l.q.map asked).drop ((l.others id).length + 1) }) := by
  have whole := erase_remove_if (p := fun x => decide (x.msg.idOf = id)) (f := asked) l.q
  rw [popById, remove_if_eq (hasId_eq id)]
  dsimp only
  rw [whole, staying_hasId, List.length_map]
  unfold occurrences
  split <;> rfl

theorem idOf_asked (x : Letter) : (asked x).msg.idOf = x.msg.idOf := idOf_congr (reads_asked x)

/-- What a search finds among the messages without the identifier. -/
theorem nextById_others {left : Letter → Letter} (same : ∀ x, asked (left x) = asked x) {id other : Bytes}
    {l l' : ListenerQueue Letter} (contents : l'.q = (l.others id).map left) :
    (l'.nextById other).1 = if other = id then .ok none else (l.nextById other).1 := by
  have idOf (x : Letter) : (left x).msg.idOf = x.msg.idOf := by
    rw [← idOf_asked (left x), same, idOf_asked]
  have found : ((l.others id).map left).find? (fun x => x.msg.idOf = other) =
      ((l.q.find? fun x => x.msg.idOf ≠ id ∧ x.msg.idOf = other)).map left := by
    rw [List.find?_map, others, List.find?_filter]
    simp [idOf]
  rw [nextById_found, nextById_found, contents, found, Option.map_map]
  split
  · rename_i removed
    have nothing : (l.q.find? fun x => x.msg.idOf ≠ id ∧ x.msg.idOf = other) = none := by
      rw [List.find?_eq_none]
      intro x _
      simp only [decide_eq_true_eq, not_and]
      exact fun kept found => kept (found.trans removed)
    rw [nothing]
    rfl
  · rename_i different
    have agree : (l.q.find? fun x => x.msg.idOf ≠ id ∧ x.msg.idOf = other) =
        l.q.find? fun x => x.msg.idOf = other := by
      congr 1
      funext x
      simp only [decide_eq_decide, and_iff_right_iff_imp]
      exact fun found removed => different (found.symm.trans removed)
    rw [agree]
    exact congrArg _ (congrArg (Option.map · _) (funext same))

theorem removes_iff {left : Letter → Letter} (same : ∀ x, asked (left x) = asked x) {id : Bytes}
    {l : ListenerQueue Letter} :
    l.Removes left id ↔ l.occurrences id = 1 ∧ ∀ x ∈ l.others id, asked x = left x := by
  have count := l.length_others id
  constructor
  · rintro ⟨l', popped, contents, -, -⟩
    rw [popById_eq] at popped
    split at popped
    · cases popped
    · rename_i present
      obtain rfl : _ = l' := (Prod.mk.inj (Option.some.inj popped)).2
      have lengths := congrArg List.length contents
      simp only [List.length_append, List.length_map, List.length_drop] at lengths
      have once : l.occurrences id = 1 := by omega
      refine ⟨once, ?_⟩
      rw [List.drop_eq_nil_of_le (by rw [List.length_map]; omega), List.append_nil] at contents
      exact List.map_inj_left.mp contents
  · rintro ⟨once, kept⟩
    have contents : (l.others id).map asked = (l.others id).map left := List.map_inj_left.mpr kept
    have removed := popById_eq id l
    rw [if_neg (by omega), List.drop_eq_nil_of_le (by rw [List.length_map]; omega), List.append_nil,
      contents] at removed
    refine ⟨_, removed, rfl, ?_, fun other different => ?_⟩
    · rw [nextById_others same rfl, if_pos rfl]
    · rw [nextById_others same rfl, if_neg different]

end ListenerQueue

/-- `popById` removes exactly the messages with the identifier when that is one message, which it has
to be for the behaviour to be defined and for nothing to stay behind. The others are left as they
were where they have an identifier, and with a null for it where they do not. -/
theorem removal_is_exact_iff (id : Bytes) (l : ListenerQueue Letter) :
    (l.Removes (fun x => x) id ↔
      l.occurrences id = 1 ∧ ∀ x ∈ l.others id, x.msg.has "id" = true) ∧
    (l.Removes asked id ↔ l.occurrences id = 1) := by
  have twice (x : Letter) : asked (asked x) = asked x := by
    have touched : (asked x).msg = x.msg.touchAll ["id"] := id_touches x.msg
    rw [asked_eq_iff, touched]
    exact (x.msg.json.find?_touch_isSome _ _).mpr (.inl rfl)
  constructor
  · rw [ListenerQueue.removes_iff fun x => rfl]
    simp only [asked_eq_iff]
  · rw [ListenerQueue.removes_iff twice]
    exact and_iff_left fun x _ => rfl

def letter (ticket : Nat) (id : String) : Letter where
  ticket := ticket
  msg := { json := (Serializer.serviceRequest (ascii "/add") .empty (ascii id)).json }

def repeated : ListenerQueue Letter where
  q_size := 10
  q := [letter 0 "1", letter 1 "1", letter 2 "2"]

/-- The end iterator is erased for an absent identifier. For one that occurs twice, the message with
the other identifier is there twice afterwards. -/
theorem removal_is_not_exact :
    repeated.popById (ascii "17") = none ∧
      (repeated.popById (ascii "1")).map (fun r => r.2.q.map Letter.ticket) = some [2, 2] ∧
      ¬ repeated.Removes (fun x => x) (ascii "17") ∧ ¬ repeated.Removes (fun x => x) (ascii "1") := by
  have absent : repeated.popById (ascii "17") = none := by
    rw [ListenerQueue.popById_eq, if_pos (by decide +kernel)]
  have twice : (repeated.popById (ascii "1")).map (fun r => r.2.q.map Letter.ticket) = some [2, 2] := by
    decide +kernel
  refine ⟨absent, twice, ?_, ?_⟩
  · rintro ⟨l', removed, -⟩
    simp [absent] at removed
  · rintro ⟨l', removed, contents, -⟩
    rw [removed] at twice
    simp only [Option.map_some, contents, List.map_map, Option.some.injEq] at twice
    have once : ((repeated.others (ascii "1")).map Letter.ticket) = [2] := by decide +kernel
    rw [Function.comp_def, once] at twice
    cases twice

end Rosbridge
