import EventServer.Archive.IArchive

/-!
# The HTTP client

`send_http_get` and `send_http_post` start a request for a coroutine; for every
attempt the library calls back once, with the answered request or with null. A
redirect starts the next attempt. What becomes of the coroutine, of the
reference to it and of the record is logged.
-/
namespace EventServer.Net.HttpClient

open EventServer.Lib.Blocks EventServer.Lib.CInt EventServer.Stream EventServer.Archive

inductive Kind where
  | get
  | post
  deriving DecidableEq

/-- What `evhttp_uri_parse` makes of a text. -/
structure Uri where
  host : Option (List Byte)
  port : Int
  path : Option (List Byte)
  query : Option (List Byte)

/-- What the library is asked for. -/
structure Attempt where
  kind : Kind
  host : List Byte
  port : Int
  target : List Byte

/-- The path of the request; `none` where `sprintf` gets a null pointer. -/
def target : Kind → Uri → Option (List Byte)
  | .post, uri => some (uri.path.getD [47])
  | .get, uri =>
    if (uri.query.getD []).length + (uri.path.getD []).length + 1 > 1 then
      uri.path.map fun path => path ++ (uri.query.map (63 :: ·)).getD []
    else some [47]

/-- `start_url_request()`; there is no connection without a host. -/
def startUrlRequest (kind : Kind) (uri : Uri) : Option Attempt := do
  let host ← uri.host
  let path ← target kind uri
  return ⟨kind, host, if uri.port = -1 then 80 else uri.port, path⟩

/-- `http_request_get` and `http_request_post`, with the reference of the message. -/
structure Request where
  kind : Kind
  uri : Uri
  /-- `thread` is not null. -/
  thread : Bool
  threadRef : Int
  responeMsg : CLXZMessage
  msgLuaRef : Int

structure Client where
  /-- The record, until it is freed. -/
  request : Option Request
  /-- The attempt that was not called back yet. -/
  attempt : Option Attempt
  /-- `lua_status` of the coroutine is `LUA_YIELD`. -/
  suspended : Bool
  /-- The codes and message contents the coroutine was resumed with. -/
  resumed : List (Int × List Byte)
  /-- How often its reference was released. -/
  released : Nat
  /-- How often the record was freed. -/
  freed : Nat
  /-- How often an event was handed to the script's function. -/
  handled : Nat

/-- `send_http_get()` and `send_http_post()` with a coroutine, which yields afterwards; `ref` is
what `luaL_ref` returns for it. -/
def sendHttp (kind : Kind) (uri : Uri) (ref : Nat) : Option Client := do
  let attempt ← startUrlRequest kind uri
  return {
    request := some ⟨kind, uri, true, ref, CIArchive.fresh.setMode SerialMode.smWrite.toInt, -1⟩
    attempt := some attempt
    suspended := true
    resumed := []
    released := 0
    freed := 0
    handled := 0 }

/-- An `evhttp_request` that was answered: `location` is none without that header, and its parse is
none where the text is no URI. -/
structure Response where
  code : Int
  location : Option (Option Uri)
  body : List Byte

/-- A call back: null after a connection failure. `yields` is whether the coroutine is suspended
again after a resume. -/
structure Callback where
  response : Option Response
  yields : Bool

/-- `_lua_proc()` for the coroutine of a request. -/
def luaProc (c : Client) (r : Request) (yields : Bool) (code : Int) : Client :=
  if r.thread then
    if c.suspended then
      { c with
        resumed := c.resumed ++ [(code, r.responeMsg.content)]
        suspended := yields
        released := if r.threadRef ≠ -1 then c.released + 1 else c.released }
    else c
  else { c with handled := c.handled + 1 }

/-- `http_request_free()`; the message has no server that could release a reference to it. -/
def httpRequestFree (c : Client) (r : Request) : Option Client :=
  if r.msgLuaRef ≠ -1 then none
  else some { c with request := none, freed := c.freed + 1 }

/-- The request goes to where the answer says. -/
def relocate (c : Client) (r : Request) (resp : Response) : Option Client := do
  let newUri ← resp.location
  let uri ← newUri
  let attempt ← startUrlRequest r.kind uri
  return { c with request := some { r with uri }, attempt := some attempt }

/-- The script's function gets the answer; the coroutine does not. -/
def postCb (c : Client) (r : Request) (resp : Response) : Option Client :=
  if resp.code = 200 then httpRequestFree { c with handled := c.handled + 1 } r
  else if resp.code = 301 then httpRequestFree c r
  else if resp.code = 302 then relocate c r resp
  else httpRequestFree { c with handled := c.handled + 1 } r

def getCb (c : Client) (r : Request) (yields : Bool) (resp : Response) : Option Client :=
  if resp.code = 200 then do
    let msg ← (r.responeMsg.setMode SerialMode.smWrite.toInt).write resp.body
      (toInt32 resp.body.length)
    httpRequestFree (luaProc c { r with responeMsg := msg } yields 200) { r with responeMsg := msg }
  else if resp.code = 301 then relocate c r resp
  else if resp.code = 302 then relocate c r resp
  else httpRequestFree (luaProc c r yields resp.code) r

/-- `http_requset_get_cb()` and `http_requset_post_cb()`. Without an attempt nothing is called. -/
def requestCb (c : Client) (cb : Callback) : Option Client :=
  match c.request, c.attempt with
  | some r, some _ =>
    let c := { c with attempt := none }
    match cb.response, r.kind with
    | none, _ => some c
    | some resp, .get => getCb c r cb.yields resp
    | some resp, .post => postCb c r resp
  | _, _ => some c

/-- After the callbacks the coroutine was resumed once, its reference released once, and the record
freed once. -/
def FinishedOnce (c : Client) (cbs : List Callback) : Prop :=
  ∃ c', cbs.foldlM requestCb c = some c' ∧ c'.resumed.length = 1 ∧ c'.released = 1 ∧ c'.freed = 1

def Callback.IsRedirect (cb : Callback) : Prop :=
  ∃ resp, cb.response = some resp ∧ (resp.code = 301 ∨ resp.code = 302)

/-- A redirect to where a request can go. -/
def Callback.Relocates (cb : Callback) : Prop :=
  ∃ resp uri, cb.response = some resp ∧ resp.location = some (some uri) ∧
    (startUrlRequest .get uri).isSome

/-- An answer with a body whose length is no negative `int`. -/
def Callback.Answers (cb : Callback) : Prop :=
  ∃ resp, cb.response = some resp ∧ (resp.code = 200 → 0 ≤ toInt32 resp.body.length)

/-- The request waits for its callback, and nothing was done for the coroutine yet. -/
structure Waiting (kind : Kind) (c : Client) (r : Request) : Prop where
  request : c.request = some r
  kind_eq : r.kind = kind
  thread : r.thread = true
  threadRef : r.threadRef ≠ -1
  msg : r.responeMsg.stream.Wf
  msgLuaRef : r.msgLuaRef = -1
  attempt : ∃ a, c.attempt = some a
  suspended : c.suspended = true
  resumed : c.resumed = []
  released : c.released = 0
  freed : c.freed = 0

theorem waiting_sendHttp {kind : Kind} {uri : Uri} {ref : Nat} {c : Client}
    (h : sendHttp kind uri ref = some c) : ∃ r, Waiting kind c r := by
  simp only [sendHttp, Option.bind_eq_bind, Option.bind_eq_some_iff, Option.pure_def,
    Option.some.injEq] at h
  obtain ⟨a, -, rfl⟩ := h
  exact ⟨_, rfl, rfl, rfl, by simp, (CIArchive.ready_fresh _).wf, rfl, ⟨a, rfl⟩, rfl, rfl, rfl, rfl⟩

theorem finishedOnce_singleton (c : Client) (cb : Callback) : FinishedOnce c [cb] ↔
    ∃ c', requestCb c cb = some c' ∧ c'.resumed.length = 1 ∧ c'.released = 1 ∧ c'.freed = 1 := by
  simp [FinishedOnce]

/-- A coroutine that is resumed and whose record is freed is finished. -/
theorem free_luaProc {c : Client} {r : Request} (h : Waiting .get c r) (msg : CLXZMessage)
    (yields : Bool) (code : Int) :
    ∃ c', httpRequestFree (luaProc { c with attempt := none } { r with responeMsg := msg } yields
        code) { r with responeMsg := msg } = some c' ∧
      c'.resumed.length = 1 ∧ c'.released = 1 ∧ c'.freed = 1 := by
  refine ⟨_, by rw [httpRequestFree, if_neg (not_not.mpr h.msgLuaRef)], ?_⟩
  simp [luaProc, h.thread, h.suspended, h.threadRef, h.resumed, h.released, h.freed]

section Get

variable {c : Client} {r : Request} (h : Waiting .get c r) (cb : Callback)

include h

theorem get_null (hn : cb.response = none) : requestCb c cb = some { c with attempt := none } := by
  obtain ⟨a, ha⟩ := h.attempt
  simp [requestCb, h.request, ha, hn]

theorem get_response {resp : Response} (hresp : cb.response = some resp) :
    requestCb c cb = getCb { c with attempt := none } r cb.yields resp := by
  obtain ⟨a, ha⟩ := h.attempt
  simp [requestCb, h.request, ha, hresp, h.kind_eq]

/-- A redirect goes on, or is not survived. -/
theorem get_redirect (hred : cb.IsRedirect) :
    (cb.Relocates ∧ ∃ c' r', requestCb c cb = some c' ∧ Waiting .get c' r') ∨
      (¬ cb.Relocates ∧ requestCb c cb = none) := by
  obtain ⟨resp, hresp, hcode⟩ := hred
  have hget : requestCb c cb = relocate { c with attempt := none } r resp := by
    rw [get_response h cb hresp, getCb]
    rcases hcode with hcode | hcode <;> simp [hcode]
  have hloc : cb.Relocates ↔ ∃ uri, resp.location = some (some uri) ∧
      (startUrlRequest .get uri).isSome := by
    simp [Callback.Relocates, hresp]
  rw [hget, hloc, relocate]
  cases hl : resp.location with
  | none => exact .inr ⟨by simp, rfl⟩
  | some new =>
    cases new with
    | none => exact .inr ⟨by simp, rfl⟩
    | some uri =>
      cases ha : startUrlRequest .get uri with
      | none => exact .inr ⟨by simp [ha], by simp [h.kind_eq, ha]⟩
      | some a =>
        have hkind : startUrlRequest r.kind uri = some a := by rw [h.kind_eq, ha]
        refine .inl ⟨⟨uri, rfl, by simp [ha]⟩, _, { r with uri },
          bind_eq_of_some rfl (bind_eq_of_some rfl (bind_eq_of_some hkind rfl)), ?_⟩
        exact ⟨rfl, h.kind_eq, h.thread, h.threadRef, h.msg, h.msgLuaRef, ⟨a, rfl⟩, h.suspended,
          h.resumed, h.released, h.freed⟩

/-- A final answer finishes the request, as long as its body can be written. -/
theorem get_answer {resp : Response} (hresp : cb.response = some resp)
    (hcode : ¬ (resp.code = 301 ∨ resp.code = 302)) :
    FinishedOnce c [cb] ↔ (resp.code = 200 → 0 ≤ toInt32 resp.body.length) := by
  rw [not_or] at hcode
  rw [finishedOnce_singleton, get_response h cb hresp, getCb]
  by_cases hok : resp.code = 200
  · have hready : (r.responeMsg.setMode SerialMode.smWrite.toInt).Ready :=
      CIArchive.ready_setMode h.msg _
    have hwrite : (r.responeMsg.setMode SerialMode.smWrite.toInt).write resp.body
        (toInt32 resp.body.length) = (r.responeMsg.setMode SerialMode.smWrite.toInt).streamWrite
          resp.body (toInt32 resp.body.length) := rfl
    rw [if_pos hok, hwrite]
    rcases Int.lt_or_le (toInt32 resp.body.length) 0 with hneg | hpos
    · have hnone : (r.responeMsg.setMode SerialMode.smWrite.toInt).streamWrite resp.body
          (toInt32 resp.body.length) = none := by
        rw [CIArchive.streamWrite, CIMemFile.write_of_neg _ _ hneg]
        split <;> rfl
      rw [hnone]
      simp [hok, hneg]
    · obtain ⟨n, hn⟩ := Int.eq_ofNat_of_zero_le hpos
      have hle := toInt32_le resp.body.length
      obtain ⟨msg, he, -⟩ := CIArchive.streamWrite_spec hready resp.body (n := n) (by omega)
      rw [hn, he]
      obtain ⟨c', hc', hdone⟩ := free_luaProc h msg cb.yields 200
      exact ⟨fun _ _ => by omega, fun _ => ⟨c', hc', hdone⟩⟩
  · rw [if_neg hok, if_neg hcode.1, if_neg hcode.2]
    obtain ⟨c', hc', hdone⟩ := free_luaProc h r.responeMsg cb.yields resp.code
    exact ⟨fun _ hok' => absurd hok' hok, fun _ => ⟨c', hc', hdone⟩⟩

theorem get_last (hlast : ¬ cb.IsRedirect) : FinishedOnce c [cb] ↔ cb.Answers := by
  cases hresp : cb.response with
  | none =>
    rw [finishedOnce_singleton, get_null h cb hresp]
    simp [Callback.Answers, hresp, h.resumed]
  | some resp =>
    rw [get_answer h cb hresp fun hcode => hlast ⟨resp, hresp, hcode⟩]
    simp [Callback.Answers, hresp]

/-- A GET over all its attempts. -/
theorem get_finished_iff {redirects : List Callback} (hred : ∀ cb ∈ redirects, cb.IsRedirect)
    (hlast : ¬ cb.IsRedirect) :
    FinishedOnce c (redirects ++ [cb]) ↔ (∀ cb ∈ redirects, cb.Relocates) ∧ cb.Answers := by
  induction redirects generalizing c r with
  | nil => simpa using get_last h cb hlast
  | cons red redirects ih =>
    rcases get_redirect h red (hred red List.mem_cons_self) with
      ⟨hgo, c', r', hc', hwait⟩ | ⟨hstop, hnone⟩
    · have hstep : FinishedOnce c (red :: redirects ++ [cb]) ↔
          FinishedOnce c' (redirects ++ [cb]) := by
        simp [FinishedOnce, hc']
      rw [hstep, ih hwait fun cb hcb => hred cb (List.mem_cons_of_mem _ hcb)]
      simp [hgo]
    · have hfail : ¬ FinishedOnce c (red :: redirects ++ [cb]) := by
        simp [FinishedOnce, hnone]
      exact ⟨fun hf => absurd hf hfail, fun hc => absurd (hc.1 red List.mem_cons_self) hstop⟩

end Get

/-- A POST, or what is left of it, for which the coroutine was not resumed. -/
structure PostIdle (c : Client) : Prop where
  kind_eq : ∀ r, c.request = some r → r.kind = .post
  resumed : c.resumed = []

theorem postIdle_of_waiting {c : Client} {r : Request} (h : Waiting .post c r) : PostIdle c := by
  refine ⟨fun r' hr' => ?_, h.resumed⟩
  obtain rfl := Option.some.inj (h.request.symm.trans hr')
  exact h.kind_eq

theorem postIdle_free {c c' : Client} {r : Request} (he : httpRequestFree c r = some c')
    (h : c.resumed = []) : PostIdle c' := by
  rw [httpRequestFree, Option.ite_none_left_eq_some, Option.some.injEq] at he
  obtain ⟨-, rfl⟩ := he
  exact ⟨by simp, h⟩

theorem postIdle_relocate {c c' : Client} {r : Request} {resp : Response}
    (he : relocate c r resp = some c') (hr : r.kind = .post) (h : c.resumed = []) :
    PostIdle c' := by
  simp only [relocate, Option.bind_eq_bind, Option.bind_eq_some_iff, Option.pure_def,
    Option.some.injEq] at he
  obtain ⟨_, -, uri, -, a, -, rfl⟩ := he
  refine ⟨fun r' hr' => ?_, h⟩
  obtain rfl := Option.some.inj hr'
  exact hr

theorem requestCb_postIdle {c c' : Client} (h : PostIdle c) {cb : Callback}
    (he : requestCb c cb = some c') : PostIdle c' := by
  unfold requestCb at he
  split at he
  next r a hr _ =>
    have hkind := h.kind_eq r hr
    dsimp only at he
    split at he
    · obtain rfl := Option.some.inj he
      exact ⟨h.kind_eq, h.resumed⟩
    next hget => exact absurd (hkind.symm.trans hget) (by decide)
    next resp _ =>
      unfold postCb at he
      split at he
      · exact postIdle_free he h.resumed
      split at he
      · exact postIdle_free he h.resumed
      split at he
      · exact postIdle_relocate he hkind h.resumed
      · exact postIdle_free he h.resumed
  next =>
    obtain rfl := Option.some.inj he
    exact h

/-- No callback of a POST resumes the coroutine. -/
theorem post_not_finished {c : Client} (h : PostIdle c) (cbs : List Callback) :
    ¬ FinishedOnce c cbs := by
  intro hfin
  obtain ⟨c', he, hresumed, -⟩ := hfin
  have hidle : PostIdle c' := by
    clear hresumed
    induction cbs generalizing c with
    | nil =>
      obtain rfl := Option.some.inj he
      exact h
    | cons cb cbs ih =>
      rw [List.foldlM_cons, Option.bind_eq_bind, Option.bind_eq_some_iff] at he
      obtain ⟨c₁, hcb, hrest⟩ := he
      exact ih (requestCb_postIdle h hcb) hrest
  rw [hidle.resumed] at hresumed
  exact absurd hresumed (by decide)

/-- The coroutine, its reference and the record are each dealt with once exactly for a GET that is
answered in the end, after redirects that say where to go. -/
theorem finished_once_iff {kind : Kind} {uri : Uri} {ref : Nat} {c : Client}
    (hc : sendHttp kind uri ref = some c) {redirects : List Callback} {last : Callback}
    (hred : ∀ cb ∈ redirects, cb.IsRedirect) (hlast : ¬ last.IsRedirect) :
    FinishedOnce c (redirects ++ [last]) ↔
      kind = .get ∧ (∀ cb ∈ redirects, cb.Relocates) ∧ last.Answers := by
  obtain ⟨r, hwait⟩ := waiting_sendHttp hc
  cases kind with
  | get => simpa using get_finished_iff hwait last hred hlast
  | post =>
    simpa using post_not_finished (postIdle_of_waiting hwait) (redirects ++ [last])

/-- `http://h/`. -/
def someUri : Uri := ⟨some [104], -1, some [47], none⟩

def redirected : Callback := ⟨some ⟨302, some (some someUri), []⟩, true⟩

def answered : Callback := ⟨some ⟨200, none, [1]⟩, false⟩

/-- Redirected once and then answered with one byte. -/
theorem finished_once_redirected : ∃ c, sendHttp .get someUri 1 = some c ∧
    FinishedOnce c [redirected, answered] := by
  obtain ⟨c, hc⟩ : ∃ c, sendHttp .get someUri 1 = some c := ⟨_, rfl⟩
  have hred : ∀ cb ∈ [redirected], cb.IsRedirect := by
    intro cb hcb
    obtain rfl := List.mem_singleton.mp hcb
    exact ⟨_, rfl, .inr rfl⟩
  have hlast : ¬ answered.IsRedirect := by
    intro hfin
    obtain ⟨resp, hresp, hcode⟩ := hfin
    obtain rfl := Option.some.inj hresp
    exact absurd hcode (by decide)
  have hone : 0 ≤ toInt32 [(1 : Byte)].length := by
    rw [toInt32_of_lt (by decide)]
    decide
  have hgo : ∀ cb ∈ [redirected], cb.Relocates := by
    intro cb hcb
    obtain rfl := List.mem_singleton.mp hcb
    exact ⟨_, someUri, rfl, rfl, rfl⟩
  exact ⟨c, hc, (finished_once_iff hc hred hlast).mpr ⟨rfl, hgo, _, rfl, fun _ => hone⟩⟩

/-- A connection failure leaves the coroutine suspended for good, and so does an answered POST. -/
theorem not_finished_null_post :
    (∃ c, sendHttp .get someUri 1 = some c ∧ ¬ FinishedOnce c [⟨none, false⟩]) ∧
      ∃ c, sendHttp .post someUri 1 = some c ∧ ¬ FinishedOnce c [answered] := by
  obtain ⟨cg, hg⟩ : ∃ c, sendHttp .get someUri 1 = some c := ⟨_, rfl⟩
  obtain ⟨cp, hp⟩ : ∃ c, sendHttp .post someUri 1 = some c := ⟨_, rfl⟩
  obtain ⟨rg, hwait⟩ := waiting_sendHttp hg
  obtain ⟨rp, hwait'⟩ := waiting_sendHttp hp
  refine ⟨⟨cg, hg, ?_⟩, cp, hp, post_not_finished (postIdle_of_waiting hwait') _⟩
  rw [get_last hwait _ (by simp [Callback.IsRedirect])]
  simp [Callback.Answers]

end EventServer.Net.HttpClient
