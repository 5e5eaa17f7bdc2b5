import WalletLedger.App.Texts
import WalletLedger.Proof.Ledger
import WalletLedger.Wire.JsonText

/-!
# The texts say what was meant

Two consumers, a cache and whoever reads the log know the ledger by its texts alone. What they
make of them is what was put into them, whatever order a JSONB column has brought the members
into; and that settles on which level the other results may speak of payloads and entries.
-/

namespace WalletLedger

open Isolation Prog Wire

/-! ## Members of an object -/

/-- A key that comes once is looked up where it stands. -/
theorem lookup_of_mem {α : Type} {ms : List (String × α)} {k : String} {v : α}
    (hk : (ms.map Prod.fst).Nodup)
    (h : (k, v) ∈ ms) : ms.lookup k = some v := by
  induction ms with
  | nil => exact absurd h List.not_mem_nil
  | cons m ms ih =>
      obtain ⟨k', v'⟩ := m
      rw [List.map_cons, List.nodup_cons] at hk
      rcases List.mem_cons.mp h with heq | hrest
      · obtain ⟨rfl, rfl⟩ := Prod.mk.inj heq
        exact List.lookup_cons_self
      · have hne : k ≠ k' := by
          rintro rfl
          exact hk.1 (List.mem_map.mpr ⟨_, hrest, rfl⟩)
        rw [List.lookup_cons, beq_false_of_ne hne]
        exact ih hk.2 hrest

/-! ## Identifiers -/

/-- UUIDs are told apart by their texts. -/
theorem uuidStr_inj {a b : Uuid} (ha : a < 2 ^ 128) : uuidStr a = uuidStr b ↔ a = b := by
  refine ⟨fun h => ?_, fun h => by rw [h]⟩
  have hread : uuidOfStr (uuidStr b) = some a := by
    rw [← h, uuidOfStr_uuidStr, if_pos ha]
  exact (eq_of_uuidOfStr hread).symm

/-! ## Events -/

/-- The ids of a payload have 128 bits. -/
structure Payload.Sized (p : Payload) : Prop where
  transaction : p.transactionId < 2 ^ 128
  wallet : p.walletId < 2 ^ 128

theorem eventPayload_keys (p : Payload) : ((LedgerService.eventPayload p).map Prod.fst).Nodup := by
  simp [LedgerService.eventPayload]

theorem eventPayload_members (p : Payload) : ∀ m ∈ LedgerService.eventPayload p, m.2.Wf := by
  intro m hm
  simp only [LedgerService.eventPayload, List.mem_cons, List.not_mem_nil, or_false] at hm
  rcases hm with rfl | rfl | rfl | rfl | rfl | rfl | rfl | rfl
  · exact .str _
  · exact .str _
  · exact .str _
  · exact .str _
  · exact .int _
  · exact .str _
  · cases p.counterpartyWalletId with
    | none => exact .null
    | some id => exact .str _
  · exact .str _

section payload

variable {p : Payload} {ms : List (String × Json)} (hms : ms.Perm (LedgerService.eventPayload p))

include hms

/-- The message is read as the payload, in the order it came out of the column. -/
theorem loads_value : loads (OutboxPublisher.value (.obj ms)) = some (.obj ms) := by
  refine loads_dumps (.obj ?_ (fun m hm => eventPayload_members p m (hms.mem_iff.mp hm)))
  exact (hms.map Prod.fst).nodup_iff.mpr (eventPayload_keys p)

/-- The members a consumer asks for. -/
theorem get_value :
    (Json.obj ms).get? "transaction_id" = some (Uuid.json p.transactionId)
      ∧ (Json.obj ms).get? "type" = some (.str p.type) ∧ (Json.obj ms).get? "status"
        = some (.str p.status)
      ∧ (Json.obj ms).get? "currency" = some (.str p.currency) ∧ (Json.obj ms).get? "amount"
        = some (.int p.amount)
      ∧ (Json.obj ms).get? "wallet_id" = some (Uuid.json p.walletId) := by
  have hget : ∀ {k : String} {v : Json}, (k, v) ∈ LedgerService.eventPayload p
      → (Json.obj ms).get? k = some v :=
    fun h => lookup_of_mem ((hms.map Prod.fst).nodup_iff.mpr (eventPayload_keys p))
      (hms.mem_iff.mpr h)
  refine ⟨hget ?_, hget ?_, hget ?_, hget ?_, hget ?_, hget ?_⟩ <;>
    simp [LedgerService.eventPayload]

/-- What the analytics consumer makes of the message. -/
theorem arguments_value (hs : p.Sized) :
    AnalyticsService.arguments (.obj ms)
      = some (p.transactionId, p.currency, p.type, p.amount) := by
  obtain ⟨hid, htype, -, hcurrency, hamount, -⟩ := get_value hms
  have hread : uuidOfStr (uuidStr p.transactionId) = some p.transactionId := by
    rw [uuidOfStr_uuidStr, if_pos hs.transaction]
  unfold AnalyticsService.arguments
  simp only [hid, hcurrency, htype, hamount, Uuid.json, hread, Option.map_some]

/-- What the notification consumer makes of it. -/
theorem notice_value :
    NotificationConsumer.notice (.obj ms) = some ⟨some (uuidStr p.transactionId)⟩
      ∧ NotificationConsumer.defaultHandler (.obj ms)
        = some ("NOTIFY: " ++ p.type ++ " " ++ p.status ++ " of " ++ String.ofList
          (intText p.amount)
          ++ " minor units (" ++ p.currency ++ ") on wallet " ++ uuidStr p.walletId) := by
  obtain ⟨hid, htype, hstatus, hcurrency, hamount, hwallet⟩ := get_value hms
  unfold NotificationConsumer.notice NotificationConsumer.defaultHandler NotificationConsumer.get
  simp only [hid, htype, hstatus, hamount, hcurrency, hwallet, Uuid.json, Option.getD_some,
    NotificationConsumer.show?, and_self]

end payload

/-- The event of a transaction agrees with it. -/
theorem Books.event_agrees {db : Db} (h : Books db) {e : OutboxEvent}
    (he : e ∈ db.outboxEvents.rows) :
    ∃ t ∈ db.transactions.rows, t.id = e.aggregateId ∧ Agrees db t e := by
  obtain ⟨hfwd, hback⟩ := h.bijection
  obtain ⟨t, ht, hid, -⟩ := hback e he
  obtain ⟨e', -, ⟨-, hagrees⟩, huniq⟩ := hfwd t ht
  rw [← huniq e he hid.symm] at hagrees
  exact ⟨t, ht, hid, hagrees⟩

/-- What the consumers make of the event `e` of a database when its members come in the order `ms`:
one line of printable ASCII that reads back as those members, from which the one takes a transaction
there is, with its currency, its type and the amount of its legs, and the other a line that says so
and a key that no other event has. -/
def Told (db : Db) (e : OutboxEvent) (ms : List (String × Json)) : Prop :=
  (∀ c ∈ OutboxPublisher.value (.obj ms), isPrintable c = true)
  ∧ loads (OutboxPublisher.value (.obj ms)) = some (.obj ms)
  ∧ ∃ t credit, t ∈ db.transactions.rows ∧ t.id = e.aggregateId ∧ db.leg t.id .credit = some credit
    ∧ AnalyticsService.arguments (.obj ms) = some (t.id, t.currency, t.type.value, credit.amount)
    ∧ NotificationConsumer.defaultHandler (.obj ms)
      = some ("NOTIFY: " ++ t.type.value ++ " COMPLETED of " ++ String.ofList
        (intText credit.amount)
        ++ " minor units (" ++ t.currency ++ ") on wallet " ++ uuidStr e.payload.walletId)
    ∧ ∀ e' ∈ db.outboxEvents.rows, e'.payload.Sized
      → ∀ ms', ms'.Perm (LedgerService.eventPayload e'.payload) →
      (NotificationConsumer.notice (.obj ms') = NotificationConsumer.notice (.obj ms) ↔ e' = e)

/-- **The topic tells the truth about the ledger**: in every run, about every event, in whatever
order the column has put its members. -/
theorem reachable_told [Runtime] (w : LedgerWorld) (h : ReachableFrom .empty w) (e : OutboxEvent)
    (he : e ∈ w.store.db.outboxEvents.rows) (hs : e.payload.Sized) (ms : List (String × Json))
    (hms : ms.Perm (LedgerService.eventPayload e.payload)) : Told w.store.db e ms := by
  have hbooks := reachable_books h
  obtain ⟨t, ht, hid, hpid, htype, hstatus, -, hcurrency, credit, debit, hcredit, -,
    hamount, -, -⟩ :=
    hbooks.event_agrees he
  have hload := loads_value hms
  have hargs := arguments_value hms hs
  obtain ⟨hnotice, hline⟩ := notice_value hms
  rw [hpid, hcurrency, htype, ← hamount] at hargs
  rw [htype, hstatus, hcurrency, ← hamount] at hline
  refine ⟨(loads_wf hload).printable, hload, t, credit, ht, hid, hcredit, hargs, ?_, ?_⟩
  · rw [hline]
    simp [TransactionStatus.value, String.append_assoc]
  · intro e' he' hs' ms' hms'
    obtain ⟨t', ht', hid', hpid', -⟩ := hbooks.event_agrees he'
    obtain ⟨hnotice', -⟩ := notice_value hms'
    rw [hnotice', hnotice]
    refine ⟨fun heq => ?_, fun heq => by rw [heq]⟩
    have hsame : uuidStr e'.payload.transactionId = uuidStr e.payload.transactionId := by
      simpa using heq
    rw [uuidStr_inj hs'.transaction, hpid', hpid] at hsame
    -- one event for each transaction
    obtain ⟨e₀, -, -, huniq⟩ := hbooks.bijection.1 t ht
    rw [huniq e he hid.symm, huniq e' he' (hid'.symm.trans hsame)]

/-- The deposit of the opening, its members turned round. -/
theorem opening_told : ∃ w e, (@ReachableFrom plainRuntime .empty w
    ∧ e ∈ w.store.db.outboxEvents.rows
    ∧ e.payload.Sized) ∧ Told w.store.db e (LedgerService.eventPayload e.payload).reverse := by
  obtain ⟨w, hr, hw⟩ := exists_runPlain .empty opening (fun w => w.store.db.outboxEvents.rows.map
    (fun e : OutboxEvent => decide (e.payload.transactionId < 2 ^ 128
      ∧ e.payload.walletId < 2 ^ 128)))
    (v := [true]) (by decide +kernel)
  obtain ⟨e, rest, hrows, hsized, -⟩ := List.map_eq_cons_iff.mp hw
  have he : e ∈ w.store.db.outboxEvents.rows := by rw [hrows]; simp
  obtain ⟨htxn, hwallet⟩ := of_decide_eq_true hsized
  exact ⟨w, e, ⟨hr, he, htxn, hwallet⟩,
    @reachable_told plainRuntime w hr e he ⟨htxn, hwallet⟩ _ (List.reverse_perm _)⟩

/-! ## Cached balances -/

/-- The strings of the entry are within what the types of the fields hold. -/
structure CachedBalance.Sized (c : CachedBalance) : Prop where
  id : c.id < 2 ^ 128
  user : c.userId < 2 ^ 128
  updatedAt : c.updatedAt < maxOrdinal * dayTicks

/-- `BalanceRead` reads back what `str` and `isoformat` write. -/
structure FieldReaders.Faithful (R : FieldReaders) : Prop where
  uuid : ∀ id < 2 ^ 128, R.uuid (uuidStr id) = some id
  datetime : ∀ t < maxOrdinal * dayTicks, R.datetime (String.ofList (isoformat t)) = some t

theorem entry_wf (c : CachedBalance) : (BalanceCache.entry c).Wf := by
  refine .obj (by simp) (fun m hm => ?_)
  simp only [List.mem_cons, List.not_mem_nil, or_false] at hm
  rcases hm with rfl | rfl | rfl | rfl | rfl | rfl
  · exact .str _
  · exact .str _
  · exact .str _
  · exact .int _
  · exact .int _
  · exact .str _

/-- **A cached balance is the balance that was cached.** The text in the cache is decoded, the
comparison of strings lets its owner through and nobody else, the answer is the one the wallet gave,
and no two wallets share a key. -/
theorem cached_read (R : FieldReaders) (hR : R.Faithful) (c : CachedBalance) (hc : c.Sized) :
    ∃ cached, BalanceCache.decode (dumps (BalanceCache.entry c)) = some cached
      ∧ (∀ currentUser, Routes.notOwner cached currentUser = some (decide (c.userId ≠ currentUser)))
      ∧ Routes.readCached R cached = some c.read
      ∧ ∀ walletId, BalanceCache.key walletId = BalanceCache.key c.id ↔ walletId = c.id := by
  have hload := loads_dumps (entry_wf c)
  have hne : dumps (BalanceCache.entry c) ≠ [] := by simp [BalanceCache.entry, dumps]
  refine ⟨BalanceCache.entry c, ?_, fun currentUser => ?_, ?_, fun walletId => ?_⟩
  · rw [BalanceCache.decode, if_neg hne, hload]
  · show some (decide (uuidStr c.userId ≠ uuidStr currentUser)) = _
    exact congrArg some (decide_eq_decide.mpr (not_congr (uuidStr_inj hc.user)))
  · show (R.uuid (uuidStr c.id)).bind _ = _
    rw [hR.uuid c.id hc.id, Option.bind_some, hR.datetime c.updatedAt hc.updatedAt]
    rfl
  · have happ : BalanceCache.key walletId = BalanceCache.key c.id ↔ uuidStr walletId
      = uuidStr c.id :=
      ⟨fun h => String.append_right_inj _ |>.mp h, fun h => by rw [BalanceCache.key, h]; rfl⟩
    rw [happ, eq_comm, uuidStr_inj hc.id, eq_comm]

/-- The readers of this development. -/
def plainReaders : FieldReaders where
  uuid := uuidOfStr
  datetime text := fromIsoformat text.toList

theorem plainReaders_faithful : plainReaders.Faithful where
  uuid id h := by simp only [plainReaders, uuidOfStr_uuidStr, if_pos h]
  datetime t h := by simp only [plainReaders, String.toList_ofList, fromIsoformat_isoformat h]

theorem leapDay_cached : ∃ cached,
    BalanceCache.decode (dumps
      (BalanceCache.entry ⟨31, 12, "INR", 100, 0, 63844963200000001⟩)) = some cached
      ∧ (∀ currentUser, Routes.notOwner cached currentUser = some (decide (12 ≠ currentUser)))
      ∧ Routes.readCached plainReaders cached = some ⟨31, "INR", 100, 0, 63844963200000001⟩
      ∧ ∀ walletId, BalanceCache.key walletId = BalanceCache.key 31 ↔ walletId = 31 :=
  cached_read plainReaders plainReaders_faithful _ ⟨by decide, by decide, by decide⟩

/-! ## Lines of the log -/

theorem payload_keys (record : LogRecord) (context : Option String) :
    ((JsonFormatter.payload record context).map Prod.fst).Nodup := by
  have hfields : ∀ fields : List String,
      ((fields.filterMap (fun field => (record.attributes.lookup field).map
        (fun v => (field, v)))).map Prod.fst).Sublist
        fields := by
    intro fields
    induction fields with
    | nil => exact .slnil
    | cons field fields ih =>
        cases h : record.attributes.lookup field with
        | none =>
            rw [List.filterMap_cons_none (by rw [h]; rfl)]
            exact ih.cons _
        | some v =>
            rw [List.filterMap_cons_some (by rw [h]; rfl)]
            exact ih.cons_cons _
  have hoption : ∀ (key : String) (value : Option String),
      ((value.toList.map (fun text => (key, Json.str text))).map Prod.fst).Sublist [key] := by
    intro key value
    cases value with
    | none => exact List.nil_sublist _
    | some text => exact .refl _
  have hsub : ((JsonFormatter.payload record context).map Prod.fst).Sublist
      (["ts", "level", "logger", "message"]
        ++ (["request_id"] ++ (JsonFormatter.extraFields ++ ["exc_info"]))) := by
    unfold JsonFormatter.payload
    rw [List.map_append, List.map_append, List.map_append]
    exact (List.Sublist.refl _).append ((hoption _ _).append ((hfields _).append (hoption _ _)))
  exact hsub.nodup (by decide)

/-- What a line has, and when. -/
theorem mem_payload_keys (record : LogRecord) (context : Option String) (k : String) :
    k ∈ (JsonFormatter.payload record context).map Prod.fst
      ↔ k ∈ ["ts", "level", "logger", "message"]
      ∨ (k = "request_id" ∧ (JsonFormatter.requestId record context).isSome = true)
      ∨ (k ∈ JsonFormatter.extraFields ∧ (record.attributes.lookup k).isSome = true)
      ∨ (k = "exc_info" ∧ record.excInfo.isSome = true) := by
  have hoption : ∀ (key : String) (value : Option String),
      k ∈ (value.toList.map (fun text => (key, Json.str text))).map Prod.fst ↔ k = key
        ∧ value.isSome = true := by
    intro key value
    cases value <;> simp
  have hfields : k ∈ (JsonFormatter.extraFields.filterMap (fun field =>
        (record.attributes.lookup field).map (fun v => (field, v)))).map Prod.fst
      ↔ k ∈ JsonFormatter.extraFields ∧ (record.attributes.lookup k).isSome = true := by
    rw [List.mem_map]
    constructor
    · rintro ⟨m, hm, rfl⟩
      obtain ⟨field, hfield, hmember⟩ := List.mem_filterMap.mp hm
      obtain ⟨v, hv, rfl⟩ := Option.map_eq_some_iff.mp hmember
      exact ⟨hfield, Option.isSome_iff_exists.mpr ⟨v, hv⟩⟩
    · rintro ⟨hfield, hsome⟩
      obtain ⟨v, hv⟩ := Option.isSome_iff_exists.mp hsome
      exact ⟨(k, v), List.mem_filterMap.mpr ⟨k, hfield, by rw [hv]; rfl⟩, rfl⟩
  unfold JsonFormatter.payload
  rw [List.map_append, List.map_append, List.map_append, List.mem_append, List.mem_append,
    List.mem_append,
    hoption, hfields, hoption]
  rfl

/-- The members that may be missing. -/
theorem lookup_optional (key k : String) (value : Option String) :
    (value.toList.map (fun text => (key, Json.str text))).lookup k = if k = key then value.map
      Json.str else none := by
  cases value with
  | none => simp
  | some text =>
      by_cases hk : k = key
      · simp [hk]
      · simp [hk, List.lookup_cons, beq_false_of_ne hk]

theorem lookup_fields (attributes : List (String × Json)) (k : String) (fields : List String) :
    (fields.filterMap (fun field => (attributes.lookup field).map (fun v => (field, v)))).lookup k
      = if k ∈ fields then attributes.lookup k else none := by
  induction fields with
  | nil => rfl
  | cons field fields ih =>
      by_cases hk : k = field
      · subst hk
        rw [if_pos List.mem_cons_self]
        cases h : attributes.lookup k with
        | none =>
            rw [List.filterMap_cons_none (by rw [h]; rfl), ih, h]
            exact ite_self none
        | some v =>
            rw [List.filterMap_cons_some (by rw [h]; rfl)]
            exact List.lookup_cons_self
      · have hmem : k ∈ field :: fields ↔ k ∈ fields := by simp [hk]
        rw [if_congr hmem rfl rfl, ← ih]
        cases h : attributes.lookup field with
        | none => rw [List.filterMap_cons_none (by rw [h]; rfl)]
        | some v =>
            rw [List.filterMap_cons_some (by rw [h]; rfl), List.lookup_cons, beq_false_of_ne hk]

/-- **A line of the log is one line, and parses to what was logged**, with the id of the request,
and to nothing else. -/
theorem format_line (record : LogRecord) (context : Option String)
    (hattributes : ∀ m ∈ record.attributes, m.2.Wf) :
    (∀ c ∈ JsonFormatter.format record context, isPrintable c = true)
    ∧ ∃ line members, loads (JsonFormatter.format record context) = some line ∧ line = .obj members
      ∧ line.get? "message" = some (.str record.message)
      ∧ line.get? "request_id" = (JsonFormatter.requestId record context).map .str
      ∧ (∀ field ∈ JsonFormatter.extraFields, line.get? field = record.attributes.lookup field)
      ∧ line.get? "exc_info" = record.excInfo.map .str
      ∧ ∀ k, k ∈ members.map Prod.fst ↔ k ∈ ["ts", "level", "logger", "message"]
        ∨ (k = "request_id" ∧ (JsonFormatter.requestId record context).isSome = true)
        ∨ (k ∈ JsonFormatter.extraFields ∧ (record.attributes.lookup k).isSome = true)
        ∨ (k = "exc_info" ∧ record.excInfo.isSome = true) := by
  have hkeys := payload_keys record context
  have hwf : ∀ m ∈ JsonFormatter.payload record context, m.2.Wf := by
    intro m hm
    unfold JsonFormatter.payload at hm
    rcases List.mem_append.mp hm with hm | hm
    · simp only [List.mem_cons, List.not_mem_nil, or_false] at hm
      rcases hm with rfl | rfl | rfl | rfl <;> exact .str _
    rcases List.mem_append.mp hm with hm | hm
    · obtain ⟨id, -, rfl⟩ := List.mem_map.mp hm
      exact .str _
    rcases List.mem_append.mp hm with hm | hm
    · obtain ⟨field, -, hfield⟩ := List.mem_filterMap.mp hm
      obtain ⟨v, hv, rfl⟩ := Option.map_eq_some_iff.mp hfield
      obtain ⟨pre, post, hsplit, -⟩ := List.lookup_eq_some_iff.mp hv
      exact hattributes (field, v) (by rw [hsplit]; simp)
    · obtain ⟨text, -, rfl⟩ := List.mem_map.mp hm
      exact .str _
  have hload := loads_dumps (.obj hkeys hwf)
  -- a key is looked up in the fixed members first, then in the optional parts
  have hlookup : ∀ k, (Json.obj (JsonFormatter.payload record context)).get? k
      = ((List.lookup k [("ts", Json.str record.ts), ("level", .str record.level),
        ("logger", .str record.logger),
          ("message", .str record.message)]).or
        ((if k = "request_id" then (JsonFormatter.requestId record context).map
          Json.str else none).or
        ((if k ∈ JsonFormatter.extraFields then record.attributes.lookup k else none).or
        (if k = "exc_info" then record.excInfo.map Json.str else none)))) := by
    intro k
    show (JsonFormatter.payload record context).lookup k = _
    unfold JsonFormatter.payload
    rw [List.lookup_append, List.lookup_append, List.lookup_append, lookup_optional, lookup_fields,
      lookup_optional]
  refine ⟨(loads_wf hload).printable, _, _, hload, rfl, ?_, ?_, fun field hfield => ?_, ?_,
    mem_payload_keys record context⟩
  · rw [hlookup]
    rfl
  · rw [hlookup]
    simp [List.lookup_cons, JsonFormatter.extraFields]
  · rw [hlookup, if_pos hfield]
    simp only [JsonFormatter.extraFields, List.mem_cons, List.not_mem_nil, or_false] at hfield
    rcases hfield with rfl | rfl | rfl | rfl <;> simp [List.lookup_cons]
  · rw [hlookup]
    simp [List.lookup_cons, JsonFormatter.extraFields]

/-- The access line of a request, which is logged outside of it. -/
theorem access_line : (∀ c ∈ JsonFormatter.format ⟨"t", "INFO", "app.access", "request", none,
      [("status", .int 200), ("duration_ms", .float "1.25")], none⟩ none, isPrintable c = true)
    ∧ ∃ line members, loads (JsonFormatter.format ⟨"t", "INFO", "app.access", "request", none,
        [("status", .int 200), ("duration_ms", .float "1.25")], none⟩ none) = some line
          ∧ line = .obj members
      ∧ line.get? "message" = some (.str "request")
      ∧ line.get? "request_id" = none
      ∧ (∀ field ∈ JsonFormatter.extraFields,
        line.get? field = List.lookup field [("status", .int 200), ("duration_ms", .float "1.25")])
      ∧ line.get? "exc_info" = none
      ∧ ∀ k, k ∈ members.map Prod.fst ↔ k ∈ ["ts", "level", "logger", "message"]
        ∨ (k = "request_id" ∧ (JsonFormatter.requestId ⟨"t", "INFO", "app.access", "request", none,
          [("status", .int 200), ("duration_ms", .float "1.25")], none⟩ none).isSome = true)
        ∨ (k ∈ JsonFormatter.extraFields
          ∧ (List.lookup k [("status", Json.int 200),
            ("duration_ms", .float "1.25")]).isSome = true)
        ∨ (k = "exc_info" ∧ (none : Option String).isSome = true) := by
  refine format_line ⟨"t", "INFO", "app.access", "request", none,
    [("status", .int 200), ("duration_ms", .float "1.25")], none⟩ none (fun m hm => ?_)
  simp only [List.mem_cons, List.not_mem_nil, or_false] at hm
  rcases hm with rfl | rfl
  · exact .int 200
  · exact .float rfl

end WalletLedger
