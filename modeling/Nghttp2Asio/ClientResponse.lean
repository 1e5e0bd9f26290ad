import Nghttp2Asio.ClientStream

/-!
How a client response is put together from header blocks: the fields of the informational
blocks, of the final block and of the trailer all arrive through one callback, and the
status the block before left behind decides what becomes of them.
-/
namespace Nghttp2Asio.Client
open Util

def colon : UInt8 := ':'.toUInt8

def Regular (f : Field) : Prop := f.name.head? ≠ some colon

instance (f : Field) : Decidable (Regular f) := inferInstanceAs (Decidable (_ ≠ _))

/-- A header block of a response as nghttp2 delivers it: `:status` first, then regular
    fields. -/
structure Block where
  statusText : Bytes
  status : Nat
  fields : List Field
  noIndex : Bool
  endStream : Bool
  reads : parseUint statusText = status
  small : status < 2 ^ 31
  regular : ∀ f ∈ fields, Regular f

def Block.informational (b : Block) : Prop := b.status / 100 = 1

instance (b : Block) : Decidable b.informational := inferInstanceAs (Decidable (_ = _))

def fieldInputs (id : Int) (endStream : Bool) (cat : HeadersCategory) (fields : List Field) :
    List Input :=
  fields.map (fun f => .recv (.header (.headers id endStream cat) f))

def statusField (b : Block) : Field := ⟨lit ":status", b.statusText, b.noIndex⟩

def Block.open (b : Block) (id : Int) (cat : HeadersCategory) : List Input :=
  fieldInputs id b.endStream cat (statusField b :: b.fields)

def Block.done (b : Block) (id : Int) (cat : HeadersCategory) : Input :=
  .recv (.frameRecv (.headers id b.endStream cat))

def Block.inputs (b : Block) (id : Int) (cat : HeadersCategory) : List Input :=
  b.open id cat ++ [b.done id cat]

/-- The category nghttp2 gives to a block: that of the first one, or HEADERS. -/
def blockCat (first : HeadersCategory) (before : List Block) : HeadersCategory :=
  if before = [] then first else .headers

def lastLength (n : Int) (fields : List Field) : Int :=
  ((fields.filter (fun f => lookupToken f.name = some .contentLength)).getLast?.map
    (fun f => parseUint f.value)).getD n

def ResponseImpl.receiveAll (res : ResponseImpl) (fields : List Field) : ResponseImpl :=
  fields.foldl (fun res f => (res.receive f).1) res

theorem regular_token {f : Field} (regular : Regular f) : lookupToken f.name ≠ some .status := by
  intro found
  obtain ⟨front, back, split, _⟩ := List.lookup_eq_some_iff.mp found
  have member : (f.name, Token.status) ∈ tokens := by simp [split]
  have pseudo : ∀ entry ∈ tokens, entry.2 = .status → entry.1.head? = some colon := by decide
  exact regular (pseudo _ member rfl)

theorem receive_regular {f : Field} (regular : Regular f) (res : ResponseImpl) :
    (res.receive f).1.statusCode = res.statusCode ∧
      (res.receive f).1.onData = res.onData ∧
      (res.receive f).1.store = (res.store.add f).getD res.store := by
  unfold ResponseImpl.receive
  rw [if_neg (regular_token regular)]
  cases res.store.add f <;> exact ⟨rfl, rfl, rfl⟩

theorem receiveAll_regular (fields : List Field) :
    ∀ res : ResponseImpl, (∀ f ∈ fields, Regular f) →
      (res.receiveAll fields).statusCode = res.statusCode ∧
        (res.receiveAll fields).onData = res.onData ∧
        (res.receiveAll fields).store = res.store.addAll fields := by
  induction fields with
  | nil =>
    intro res _
    exact ⟨rfl, rfl, rfl⟩
  | cons f rest ih =>
    intro res regular
    obtain ⟨status, data, store⟩ := receive_regular (regular f (by simp)) res
    obtain ⟨restStatus, restData, restStore⟩ := ih (res.receive f).1
      (fun g member => regular g (by simp [member]))
    rw [status] at restStatus
    rw [data] at restData
    rw [store] at restStore
    exact ⟨restStatus, restData, restStore⟩

theorem lastLength_cons (n : Int) (f : Field) (rest : List Field) :
    lastLength n (f :: rest) =
      lastLength (if lookupToken f.name = some .contentLength then parseUint f.value else n)
        rest := by
  unfold lastLength
  by_cases named : lookupToken f.name = some .contentLength
  · simp only [named, decide_true, List.filter_cons_of_pos, ↓reduceIte]
    cases rest.filter (fun f => lookupToken f.name = some .contentLength) with
    | nil => rfl
    | cons g more =>
      have last : (g :: more).getLast? = some ((g :: more).getLast (by simp)) :=
        List.getLast?_eq_some_getLast _
      rw [List.getLast?_cons_cons, last]
      rfl
  · simp [named]

theorem receiveAll_length (fields : List Field) :
    ∀ res : ResponseImpl, (∀ f ∈ fields, Regular f) →
      res.store.headerBufferSize + fieldsSize fields ≤ headerLimit →
      (res.receiveAll fields).contentLength = lastLength res.contentLength fields := by
  induction fields with
  | nil =>
    intro res _ _
    rfl
  | cons f rest ih =>
    intro res regular fits
    rw [fieldsSize, List.map_cons, List.sum_cons] at fits
    have room : ¬ res.store.headerBufferSize + f.size > headerLimit := by omega
    have received : res.receive f = (⟨res.statusCode,
        if lookupToken f.name = some .contentLength then parseUint f.value
          else res.contentLength,
        ⟨res.store.header.emplace f.entry.1 f.entry.2, res.store.headerBufferSize + f.size⟩,
        res.onData⟩, false) := by
      unfold ResponseImpl.receive
      rw [if_neg (regular_token (regular f (by simp))), HeaderStore.add, if_neg room]
    rw [lastLength_cons, ResponseImpl.receiveAll, List.foldl_cons, received]
    exact ih _ (fun g member => regular g (by simp [member]))
      (by simp only [fieldsSize]; omega)

theorem receive_status (b : Block) (res : ResponseImpl) :
    (res.receive (statusField b)).1 = { res with statusCode := b.status } := by
  have small := b.small
  have token : lookupToken (lit ":status") = some .status := by decide
  have value : toInt (parseUint (statusField b).value) = b.status := by
    rw [show (statusField b).value = b.statusText from rfl, b.reads, toInt]
    rw [Int.bmod_eq_of_le (by omega) (by omega)]
  unfold ResponseImpl.receive
  rw [show (statusField b).name = lit ":status" from rfl, if_pos token, value]

theorem expectFinal_iff (b : Block) (res : ResponseImpl) (status : res.statusCode = b.status) :
    res.expectFinalResponse = true ↔ b.informational := by
  rw [ResponseImpl.expectFinalResponse, status, Block.informational, decide_eq_true_eq]
  constructor
  · intro final
    have natural : ((b.status / 100 : Nat) : Int) = 1 := by
      rw [← final]
      rfl
    omega
  · intro final
    rw [show ((b.status : Int).tdiv 100) = ((b.status / 100 : Nat) : Int) from rfl, final]
    rfl

theorem ignores_congr {res other : ResponseImpl} (same : res.statusCode = other.statusCode)
    (cat : HeadersCategory) : res.ignores cat = other.ignores cat := by
  simp only [ResponseImpl.ignores, ResponseImpl.expectFinalResponse, same]

theorem run_fields (app : App) (id : Int) (endStream : Bool) (cat : HeadersCategory)
    (fields : List Field) :
    ∀ res : ResponseImpl, (∀ f ∈ fields, Regular f) →
      Trace.run (ResponseImpl.step app) (some res) (fieldInputs id endStream cat fields) =
        (some (if res.ignores cat then res else res.receiveAll fields), []) := by
  induction fields with
  | nil =>
    intro res _
    simp [fieldInputs, ResponseImpl.receiveAll]
  | cons f rest ih =>
    intro res regular
    have later := fun g member => regular g (List.mem_cons_of_mem f member)
    have here := (receive_regular (regular f (by simp)) res).1
    rw [fieldInputs, List.map_cons, Trace.run_cons]
    simp only [ResponseImpl.step, Option.map_some]
    rw [← fieldInputs]
    cases ignored : res.ignores cat with
    | true =>
      have tail := ih res later
      simp only [ignored, ↓reduceIte] at tail ⊢
      rw [tail]
      rfl
    | false =>
      have tail := ih (res.receive f).1 later
      rw [ignores_congr here, ignored] at tail
      simp only [Bool.false_eq_true, ↓reduceIte] at tail ⊢
      rw [tail]
      rfl

theorem run_open (app : App) (id : Int) (cat : HeadersCategory) (b : Block)
    (res : ResponseImpl) (listening : res.ignores cat = false) :
    Trace.run (ResponseImpl.step app) (some res) (b.open id cat) =
      (some (if cat = .headers ∧ ¬ b.informational then { res with statusCode := b.status }
        else { res with statusCode := b.status }.receiveAll b.fields), []) := by
  have named : ({ res with statusCode := b.status } : ResponseImpl).ignores cat = true ↔
      cat = .headers ∧ ¬ b.informational := by
    have final := expectFinal_iff b { res with statusCode := b.status } rfl
    rw [ResponseImpl.ignores, Bool.and_eq_true, decide_eq_true_eq, Bool.not_eq_true',
      ← Bool.not_eq_true, final]
  rw [Block.open, fieldInputs, List.map_cons, Trace.run_cons]
  simp only [ResponseImpl.step, Option.map_some, listening, Bool.false_eq_true, ↓reduceIte]
  rw [receive_status, ← fieldInputs, run_fields app id b.endStream cat b.fields _ b.regular]
  simp only [named]
  rfl

theorem step_done (app : App) (id : Int) (cat : HeadersCategory) (b : Block)
    (res : ResponseImpl) (quiet : res.ignores cat = true ∨ res.expectFinalResponse = true) :
    ResponseImpl.step app (some res) (b.done id cat) = (some res, []) := by
  simp only [Block.done, ResponseImpl.step]
  rcases quiet with ignored | waits
  · rw [if_pos ignored]
  · simp only [waits, ↓reduceIte, ite_self]

theorem run_informational (app : App) (id : Int) (cat : HeadersCategory) (b : Block)
    (res : ResponseImpl) (listening : res.ignores cat = false)
    (informational : b.informational) :
    ∃ next : ResponseImpl, next.expectFinalResponse = true ∧ next.onData = res.onData ∧
      Trace.run (ResponseImpl.step app) (some res) (b.inputs id cat) = (some next, []) := by
  obtain ⟨status, data, _⟩ :=
    receiveAll_regular b.fields { res with statusCode := b.status } b.regular
  have waits := (expectFinal_iff b _ status).mpr informational
  refine ⟨_, waits, data, ?_⟩
  rw [Block.inputs, Trace.run_concat, run_open app id cat b res listening,
    if_neg (by simp [informational])]
  simp only [step_done app id cat b _ (Or.inr waits), List.append_nil]

theorem listening_headers {res : ResponseImpl} (waits : res.expectFinalResponse = true) :
    res.ignores .headers = false := by
  simp [ResponseImpl.ignores, waits]

theorem run_informationals (app : App) (id : Int) (blocks : List Block) :
    ∀ res : ResponseImpl, res.expectFinalResponse = true → (∀ b ∈ blocks, b.informational) →
      ∃ next : ResponseImpl, next.expectFinalResponse = true ∧ next.onData = res.onData ∧
        Trace.run (ResponseImpl.step app) (some res) (blocks.flatMap (·.inputs id .headers)) =
          (some next, []) := by
  induction blocks with
  | nil =>
    intro res waits _
    exact ⟨res, waits, rfl, rfl⟩
  | cons b rest ih =>
    intro res waits informational
    obtain ⟨mid, midWaits, midData, first⟩ := run_informational app id .headers b res
      (listening_headers waits) (informational b (by simp))
    obtain ⟨next, nextWaits, nextData, tail⟩ := ih mid midWaits
      (fun c member => informational c (by simp [member]))
    refine ⟨next, nextWaits, nextData.trans midData, ?_⟩
    rw [List.flatMap_cons, Trace.run_append, first, tail]
    rfl

def Later : Input → Prop
  | .submit _ _ => False
  | .recv (.beginHeaders (.pushPromise _ _)) => False
  | .recv (.header (.headers _ _ cat) _) => cat = .headers
  | .recv (.frameRecv (.headers _ _ cat)) => cat = .headers
  | _ => True

def Output.responded : Output → Option ResponseImpl
  | .response _ res _ => some res
  | _ => none

def responses (log : List Output) : List ResponseImpl := log.filterMap Output.responded

@[simp] theorem responses_append (first rest : List Output) :
    responses (first ++ rest) = responses first ++ responses rest := by
  simp [responses]

theorem later_step (app : App) {res : ResponseImpl} {i : Input}
    (complete : res.expectFinalResponse = false) (later : Later i) :
    ((ResponseImpl.step app (some res) i).1 = some res ∨
        (ResponseImpl.step app (some res) i).1 = none) ∧
      responses (ResponseImpl.step app (some res) i).2 = [] := by
  have ignored : res.ignores .headers = true := by simp [ResponseImpl.ignores, complete]
  rcases i with ⟨id, request⟩ | e
  · exact False.elim later
  cases e with
  | beginHeaders frame =>
    rcases frame with ⟨id, fin⟩ | ⟨id, fin, cat⟩ | ⟨id, promised⟩ | ⟨type, id⟩
    all_goals exact ⟨Or.inl rfl, rfl⟩
  | header frame f =>
    rcases frame with ⟨id, fin⟩ | ⟨id, fin, cat⟩ | ⟨id, promised⟩ | ⟨type, id⟩
    case headers =>
      have trailer : cat = .headers := later
      simp [ResponseImpl.step, trailer, ignored, responses]
    all_goals exact ⟨Or.inl rfl, rfl⟩
  | frameRecv frame =>
    rcases frame with ⟨id, fin⟩ | ⟨id, fin, cat⟩ | ⟨id, promised⟩ | ⟨type, id⟩
    case data => cases fin <;> exact ⟨Or.inl rfl, rfl⟩
    case headers =>
      have trailer : cat = .headers := later
      simp [ResponseImpl.step, trailer, ignored, responses]
    all_goals exact ⟨Or.inl rfl, rfl⟩
  | dataChunk id data => exact ⟨Or.inl rfl, rfl⟩
  | streamClose id errorCode => exact ⟨Or.inr rfl, rfl⟩

theorem closed_step (app : App) {i : Input} (later : Later i) :
    ResponseImpl.step app none i = (none, []) := by
  rcases i with ⟨id, request⟩ | e
  · exact False.elim later
  cases e with
  | beginHeaders frame =>
    rcases frame with ⟨id, fin⟩ | ⟨id, fin, cat⟩ | ⟨id, promised⟩ | ⟨type, id⟩
    case pushPromise => exact False.elim later
    all_goals rfl
  | header frame f =>
    rcases frame with ⟨id, fin⟩ | ⟨id, fin, cat⟩ | ⟨id, promised⟩ | ⟨type, id⟩
    all_goals rfl
  | frameRecv frame =>
    rcases frame with ⟨id, fin⟩ | ⟨id, fin, cat⟩ | ⟨id, promised⟩ | ⟨type, id⟩
    case data => cases fin <;> rfl
    all_goals rfl
  | dataChunk id data => rfl
  | streamClose id errorCode => rfl

theorem closed_run (app : App) (inputs : List Input) (later : ∀ i ∈ inputs, Later i) :
    Trace.run (ResponseImpl.step app) none inputs = (none, []) := by
  have idle := Trace.run_constant (fun _ => []) inputs
    (fun i member => closed_step app (later i member))
  rw [idle, List.flatMap_eq_nil_iff.mpr (fun _ _ => rfl)]

theorem later_run (app : App) (res : ResponseImpl)
    (complete : res.expectFinalResponse = false) (inputs : List Input)
    (later : ∀ i ∈ inputs, Later i) :
    ((Trace.run (ResponseImpl.step app) (some res) inputs).1 = some res ∨
        (Trace.run (ResponseImpl.step app) (some res) inputs).1 = none) ∧
      responses (Trace.run (ResponseImpl.step app) (some res) inputs).2 = [] := by
  induction inputs with
  | nil => exact ⟨Or.inl rfl, rfl⟩
  | cons i rest ih =>
    obtain ⟨entry, silent⟩ := later_step app complete (later i (by simp))
    have restLater := fun j member => later j (List.mem_cons_of_mem i member)
    rw [Trace.run_cons, responses_append, silent, List.nil_append]
    rcases entry with kept | gone
    · rw [kept]
      exact ih restLater
    · rw [gone, closed_run app rest restLater]
      exact ⟨Or.inr rfl, rfl⟩

def Opens (id : Int) : Input → Prop
  | .submit k _ => k = id
  | .recv (.beginHeaders (.pushPromise _ k)) => k = id
  | _ => False

def blocksInputs (id : Int) (first : HeadersCategory) : List Block → List Input
  | [] => []
  | b :: rest => b.inputs id first ++ rest.flatMap (·.inputs id .headers)

/-- The blocks of one stream up to its final one, and what follows, among the events of a
    session. -/
structure Reception where
  id : Int
  opening : Input
  opens : Opens id opening
  first : HeadersCategory
  initial : first ≠ .headers
  informational : List Block
  waits : ∀ b ∈ informational, b.informational
  final : Block
  ends : ¬ final.informational
  before : List Input
  ownBefore : before.filter (fun i => i.concerns = some id) =
    opening :: (blocksInputs id first informational ++
      final.open id (blockCat first informational))
  after : List Input
  ownAfter : ∀ i ∈ after, i.concerns = some id → Later i

namespace Reception

def cat (r : Reception) : HeadersCategory := blockCat r.first r.informational

def finish (r : Reception) : Input := r.final.done r.id r.cat

def responseAfter (r : Reception) (app : App) (inputs : List Input) : Option ResponseImpl :=
  responseOf (Trace.run (step app) ∅ inputs).1 (some r.id)

def responsesTo (r : Reception) (app : App) (inputs : List Input) : List ResponseImpl :=
  responses (heard app r.id inputs)

end Reception

structure Shows (res : ResponseImpl) (b : Block) : Prop where
  status : res.statusCode = b.status
  header : res.store.header = Multimap.ofList (b.fields.map Field.entry)
  length : res.contentLength = lastLength (-1) b.fields

/-- The response callback runs once, when the final block is complete and with what it
    said, and nothing that comes later changes the response. -/
structure Assembled (app : App) (r : Reception) : Prop where
  early : r.responsesTo app r.before = []
  once : ∃ res, r.responsesTo app (r.before ++ [r.finish]) = [res] ∧
    r.responsesTo app (r.before ++ r.finish :: r.after) = [res] ∧ Shows res r.final
  kept : ∀ part rest, r.after = part ++ rest → ∀ res,
    r.responseAfter app (r.before ++ r.finish :: part) = some res → Shows res r.final

theorem opening_response (app : App) {id : Int} {i : Input} (opens : Opens id i) :
    ResponseImpl.step app none i = (some .new, []) := by
  rcases i with ⟨k, request⟩ | e
  · rfl
  cases e with
  | beginHeaders frame =>
    rcases frame with ⟨k, fin⟩ | ⟨k, fin, cat⟩ | ⟨k, promised⟩ | ⟨type, k⟩
    case pushPromise => rfl
    all_goals exact False.elim opens
  | header frame f => exact False.elim opens
  | frameRecv frame => exact False.elim opens
  | dataChunk k data => exact False.elim opens
  | streamClose k errorCode => exact False.elim opens

theorem new_listens {cat : HeadersCategory} (initial : cat ≠ .headers) (res : ResponseImpl) :
    res.ignores cat = false := by
  simp [ResponseImpl.ignores, initial]

section Reception
variable (app : App) (r : Reception)

theorem own_upto :
    (r.before ++ [r.finish]).filter (fun i => i.concerns = some r.id) =
      r.opening :: (blocksInputs r.id r.first r.informational ++
        r.final.open r.id r.cat ++ [r.finish]) := by
  have concerned : r.finish.concerns = some r.id := rfl
  rw [List.filter_append, r.ownBefore, List.filter_cons_of_pos (by simp [concerned])]
  simp [Reception.cat]

theorem final_complete (res : ResponseImpl) (status : res.statusCode = r.final.status) :
    res.expectFinalResponse = false := by
  rw [← Bool.not_eq_true, expectFinal_iff r.final res status]
  exact r.ends

/-- With an informational block the final one is taken for a trailer. -/
theorem skipped_run (some_ : r.informational ≠ []) :
    ∃ res : ResponseImpl, res.statusCode = r.final.status ∧ res.onData = false ∧
      Trace.run (ResponseImpl.step app) none
        (r.opening :: (blocksInputs r.id r.first r.informational ++
          r.final.open r.id r.cat ++ [r.finish])) = (some res, []) := by
  have cat : r.cat = .headers := by simp [Reception.cat, blockCat, some_]
  obtain ⟨b, rest, blocks⟩ := List.exists_cons_of_ne_nil some_
  have informational := r.waits
  rw [blocks] at informational
  obtain ⟨mid, midWaits, midData, first⟩ := run_informational app r.id r.first b .new
    (new_listens r.initial .new) (informational b (by simp))
  obtain ⟨next, nextWaits, nextData, tail⟩ := run_informationals app r.id rest mid midWaits
    (fun c member => informational c (by simp [member]))
  have fields := run_open app r.id .headers r.final next (listening_headers nextWaits)
  rw [if_pos ⟨rfl, r.ends⟩] at fields
  refine ⟨{ next with statusCode := r.final.status }, rfl, ?_, ?_⟩
  · exact nextData.trans midData
  · have complete := final_complete r { next with statusCode := r.final.status } rfl
    have ignored : ({ next with statusCode := r.final.status } : ResponseImpl).ignores
        .headers = true := by
      simp [ResponseImpl.ignores, complete]
    rw [Trace.run_cons, opening_response app r.opens, Trace.run_append, Trace.run_append,
      blocks, blocksInputs, Trace.run_append, first, tail, cat, fields, Reception.finish, cat]
    simp only [Trace.run_cons, Trace.run_nil,
      step_done app r.id .headers r.final _ (Or.inl ignored), List.append_nil]

theorem direct_run (none_ : r.informational = []) :
    Trace.run (ResponseImpl.step app) none
      (r.opening :: (blocksInputs r.id r.first r.informational ++
        r.final.open r.id r.cat)) =
      (some ({ ResponseImpl.new with statusCode := r.final.status }.receiveAll
        r.final.fields), []) := by
  have cat : r.cat = r.first := by simp [Reception.cat, blockCat, none_]
  rw [Trace.run_cons, opening_response app r.opens, none_, blocksInputs, List.nil_append, cat,
    run_open app r.id r.first r.final .new (new_listens r.initial .new),
    if_neg (by simp [r.initial])]
  rfl

def directResponse : ResponseImpl :=
  { ResponseImpl.new with statusCode := r.final.status }.receiveAll r.final.fields

theorem direct_done (none_ : r.informational = []) :
    ResponseImpl.step app (some (directResponse r)) r.finish =
      (some (callOnResponse app r.id (directResponse r)).1,
        (callOnResponse app r.id (directResponse r)).2 ++
          if r.final.endStream then
            callOnData r.id (callOnResponse app r.id (directResponse r)).1 []
          else []) := by
  have cat : r.cat = r.first := by simp [Reception.cat, blockCat, none_]
  have status := (receiveAll_regular r.final.fields
    { ResponseImpl.new with statusCode := r.final.status } r.final.regular).1
  have complete := final_complete r (directResponse r) status
  have listens := new_listens r.initial (directResponse r)
  simp only [Reception.finish, Block.done, ResponseImpl.step, cat, listens, complete,
    Bool.false_eq_true, ↓reduceIte]

theorem directResponse_shows :
    Shows (directResponse r) r.final ↔ fieldsSize r.final.fields ≤ headerLimit := by
  obtain ⟨status, _, store⟩ := receiveAll_regular r.final.fields
    { ResponseImpl.new with statusCode := r.final.status } r.final.regular
  have stored : (directResponse r).store = HeaderStore.empty.addAll r.final.fields := store
  constructor
  · intro shows_
    have header := shows_.header
    rw [stored] at header
    exact (addAll_exact_iff _).mp header
  · intro fits
    constructor
    · exact status
    · rw [stored]
      exact (addAll_exact_iff _).mpr fits
    · exact receiveAll_length r.final.fields
        { ResponseImpl.new with statusCode := r.final.status } r.final.regular
        (by simpa [ResponseImpl.new, HeaderStore.empty] using fits)

theorem own_after (part rest : List Input) (split : r.after = part ++ rest) :
    (r.before ++ r.finish :: part).filter (fun i => i.concerns = some r.id) =
        (r.before ++ [r.finish]).filter (fun i => i.concerns = some r.id) ++
          part.filter (fun i => i.concerns = some r.id) ∧
      ∀ i ∈ part.filter (fun i => i.concerns = some r.id), Later i := by
  constructor
  · rw [← List.filter_append, List.append_assoc, List.singleton_append]
  · intro i member
    obtain ⟨inside, concerned⟩ := List.mem_filter.mp member
    exact r.ownAfter i (by simp [split, inside]) (by simpa using concerned)

theorem direct_upto (none_ : r.informational = []) :
    Trace.run (ResponseImpl.step app) none
        ((r.before ++ [r.finish]).filter (fun i => i.concerns = some r.id)) =
      ResponseImpl.step app (some (directResponse r)) r.finish := by
  rw [own_upto, ← List.cons_append, Trace.run_concat, direct_run app r none_]
  rfl

theorem assembled_of_direct (none_ : r.informational = [])
    (fits : fieldsSize r.final.fields ≤ headerLimit) : Assembled app r := by
  have shows_ := (directResponse_shows r).mpr fits
  have complete := final_complete r (callOnResponse app r.id (directResponse r)).1
    shows_.status
  have given : responses (ResponseImpl.step app (some (directResponse r)) r.finish).2 =
      [directResponse r] := by
    rw [direct_done app r none_]
    cases r.final.endStream <;> rfl
  have entry : (ResponseImpl.step app (some (directResponse r)) r.finish).1 =
      some (callOnResponse app r.id (directResponse r)).1 := by
    rw [direct_done app r none_]
  constructor
  · rw [Reception.responsesTo, (heard_own app r.id r.before).1, r.ownBefore]
    exact congrArg responses (congrArg Prod.snd (direct_run app r none_))
  · refine ⟨directResponse r, ?_, ?_, shows_⟩
    · rw [Reception.responsesTo, (heard_own app r.id _).1, direct_upto app r none_, given]
    · obtain ⟨split, later⟩ := own_after r r.after [] (by simp)
      obtain ⟨_, silent⟩ := later_run app _ complete _ later
      rw [Reception.responsesTo, (heard_own app r.id _).1, split, Trace.run_append,
        direct_upto app r none_, responses_append, given, entry, silent, List.append_nil]
  · intro part rest part_split res now
    obtain ⟨split, later⟩ := own_after r part rest part_split
    obtain ⟨kept, _⟩ := later_run app _ complete _ later
    rw [Reception.responseAfter, (heard_own app r.id _).2, split, Trace.run_append,
      direct_upto app r none_, entry] at now
    rcases kept with same | gone
    · rw [same, Option.some.injEq] at now
      rw [← now]
      exact ⟨shows_.status, shows_.header, shows_.length⟩
    · rw [gone] at now
      contradiction

/-- The response callback gets the final block exactly when no informational block came
    before it and its fields are within the header budget. -/
theorem assembled_iff :
    Assembled app r ↔
      r.informational = [] ∧ fieldsSize r.final.fields ≤ headerLimit := by
  constructor
  · intro assembled
    obtain ⟨res, once, _, shows_⟩ := assembled.once
    rw [Reception.responsesTo, (heard_own app r.id _).1] at once
    have none_ : r.informational = [] := by
      by_contra some_
      obtain ⟨other, _, _, silent⟩ := skipped_run app r some_
      rw [own_upto, silent] at once
      contradiction
    refine ⟨none_, ?_⟩
    rw [direct_upto app r none_, direct_done app r none_, responses_append] at once
    have same : directResponse r = res := by
      injection once with same _
    exact (directResponse_shows r).mp (same ▸ shows_)
  · intro ⟨none_, fits⟩
    exact assembled_of_direct app r none_ fits

end Reception

def block100 : Block where
  statusText := lit "100"
  status := 100
  fields := []
  noIndex := false
  endStream := false
  reads := by decide
  small := by decide
  regular := by simp

def block200 : Block where
  statusText := lit "200"
  status := 200
  fields := [⟨lit "content-length", lit "5", false⟩]
  noIndex := false
  endStream := false
  reads := by decide
  small := by decide
  regular := by decide

def continued : Reception where
  id := 1
  opening := .submit 1 .empty
  opens := rfl
  first := .response
  initial := by decide
  informational := [block100]
  waits := by decide
  final := block200
  ends := by decide
  before := .submit 1 .empty :: (block100.inputs 1 .response ++ block200.open 1 .headers)
  ownBefore := by decide
  after := []
  ownAfter := by simp

theorem continued_not_assembled : ¬ Assembled ⟨fun _ => true, fun _ _ => true⟩ continued := by
  intro assembled
  obtain ⟨res, once, _⟩ := assembled.once
  have nothing : continued.responsesTo ⟨fun _ => true, fun _ _ => true⟩
      (continued.before ++ [continued.finish]) = [] := by decide
  rw [nothing] at once
  contradiction

end Nghttp2Asio.Client
