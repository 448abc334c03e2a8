import EventServer.Json.Nesting
import EventServer.Json.Stack
import EventServer.Json.Strings

/-!
# There and back

What the decoder builds from the text of a document: a number of more than 14 characters
comes back as a string, the key of a member is a string, and nothing is null.
-/
namespace EventServer.Json

open EventServer.Lib.CString EventServer.Lib.Decimal EventServer.Stream

variable {ν : Type}

section Build

variable (read : List Byte → ν)

mutual

def Doc.build : Doc → Tree ν
  | .null => .null
  | .boolean b => .boolean b
  | .number t => if t.length > 14 then .string t else .number (read t)
  | .string s => .string s
  | .array ds => .table (addElements ds 1 [])
  | .object ms => .table (addMembers ms [])

def addElements : List Doc → Nat → List (Key × Tree ν) → List (Key × Tree ν)
  | [], _, pairs => pairs
  | d :: ds, i, pairs => addElements ds (i + 1) (setKey (.index i) d.build pairs)

def addMembers : List (List Byte × Doc) → List (Key × Tree ν) → List (Key × Tree ν)
  | [], pairs => pairs
  | (k, d) :: ms, pairs => addMembers ms (setKey (.name k) d.build pairs)

end

end Build

/-! ## Numbers -/

/-- What may stand behind a value. -/
def Ends (rest : List Byte) : Prop := (lit [',', ']', '}', '\x00']).contains (rest.headD 0)

/-- `strtod` reads the text of a number as far as it goes. -/
structure Readable (env : Env ν) (read : List Byte → ν) (t : List Byte) : Prop where
  head : t.headD 0 = chr '-' ∨ isDigit (t.headD 0)
  plain : ∀ c ∈ t, char2escape c = none
  valid : ∀ rest, Ends rest → isInvalidNumber (t ++ rest) = false
  strtod : ∀ rest, Ends rest → env.strtod (t ++ rest) = (read t, t.length)

variable {env : Env ν} {read : List Byte → ν}

theorem ends_nil : Ends [] := by
  unfold Ends
  decide

theorem type_of_numeric {c : Byte} (h : c = chr '-' ∨ isDigit c) :
    ch2token c = .unknown ∧ c ≠ chr '"' ∧ c ≠ 0 := by
  revert c
  decide +kernel

theorem nextToken_number {t rest : List Byte} (ht : Readable env read t) (hrest : Ends rest) :
    nextToken nextNumberToken env (t ++ rest) =
      ⟨t ++ rest, if t.length > 14 then .string t else .number (read t), rest⟩ := by
  obtain ⟨htype, hquote, hzero⟩ := type_of_numeric ht.head
  cases t with
  | nil => exact absurd rfl hzero
  | cons c t =>
    rw [List.headD_cons] at htype hquote
    have hskip : skip (c :: t ++ rest) = c :: t ++ rest :=
      List.dropWhile_cons_of_neg (by rw [htype]; decide)
    have hnumber : nextNumberToken env (c :: t ++ rest) =
        (if (c :: t).length > 14 then .string (c :: t) else .number (read (c :: t)), rest) := by
      rw [nextNumberToken, ht.strtod rest hrest]
      dsimp only
      rw [if_neg (List.length_cons ▸ Nat.succ_ne_zero _), List.take_left, List.drop_left]
      split
      · rfl
      · rfl
    have hhead : (c :: t ++ rest).headD 0 = c := rfl
    have hnumeric : c = chr '-' ∨ isDigit c := ht.head
    rw [nextToken, hskip, hhead, htype]
    simp only [nextUnknown, hhead, if_neg hquote, if_pos hnumeric, ht.valid rest hrest, hnumber,
      Bool.and_false, Bool.false_eq_true, if_false]

/-! ## The parser on a document -/

/-- The run gives this, if the fuel lasts. -/
def Gives (x : Except Error (Out ν × List Byte)) (rest : List Byte) (Q : Out ν → Prop) : Prop :=
  x = .error .exhausted ∨ ∃ out, x = .ok (out, rest) ∧ Q out

theorem Gives.bind {x : Except Error (Out ν × List Byte)} {rest rest' : List Byte}
    {Q Q' : Out ν → Prop} {f : Out ν × List Byte → Except Error (Out ν × List Byte)}
    (hx : Gives x rest Q) (hf : ∀ out, Q out → Gives (f (out, rest)) rest' Q') :
    Gives (x >>= f) rest' Q' := by
  rcases hx with rfl | ⟨out, rfl, hout⟩
  · exact .inl rfl
  · exact hf out hout

/-- The calls push this value on any stack of this height. -/
def PushesValue (limit top : Nat) (v : Tree ν) (out : Out ν) : Prop :=
  ∀ stack, stack.length = top → execAll limit out.calls stack = some (v :: stack)

/-- The calls turn one table on any stack of this height into another one. -/
def FillsTable (limit top : Nat) (f : List (Key × Tree ν) → List (Key × Tree ν)) (out : Out ν) :
    Prop :=
  ∀ stack pairs, stack.length = top →
    execAll limit out.calls (.table pairs :: stack) = some (.table (f pairs) :: stack)

theorem FillsTable.append {limit top : Nat} {f g : List (Key × Tree ν) → List (Key × Tree ν)}
    {a b : Out ν} (ha : FillsTable limit top f a) (hb : FillsTable limit top g b) :
    FillsTable limit top (fun pairs => g (f pairs)) (a ++ b) := by
  intro stack pairs hstack
  rw [calls_append, execAll_append, ha stack pairs hstack, Option.bind_some,
    hb stack (f pairs) hstack]

theorem FillsTable.newtable {limit top : Nat} {f : List (Key × Tree ν) → List (Key × Tree ν)}
    {out : Out ν} (h : FillsTable limit top f out) (hroom : top < limit) :
    PushesValue limit top (.table (f [])) (Out.call .newtable ++ out) := by
  intro stack hstack
  have hpush : execAll limit (Out.call (.newtable : LuaCall ν)).calls stack =
      some (.table [] :: stack) :=
    (execAll_singleton limit .newtable stack).trans (if_pos (hstack ▸ hroom))
  rw [calls_append, execAll_append, hpush, Option.bind_some, h stack [] hstack]

theorem PushesValue.rawseti {limit top i : Nat} {v : Tree ν} {out : Out ν}
    (h : PushesValue limit (top + 1) v out) :
    FillsTable limit top (setKey (.index i) v) (out ++ Out.call (.rawseti i)) := by
  intro stack pairs hstack
  rw [calls_append, execAll_append, h (.table pairs :: stack) (congrArg Nat.succ hstack),
    Option.bind_some]
  rfl

theorem PushesValue.rawset {limit top : Nat} {v : Tree ν} {out : Out ν} (place k : List Byte)
    (h : PushesValue limit (top + 2) v out) (hroom : top + 1 < limit) :
    FillsTable limit top (setKey (.name k) v) (Out.key place k ++ out ++ Out.call .rawset) := by
  intro stack pairs hstack
  have hkey : execAll limit (Out.key place k : Out ν).calls (.table pairs :: stack) =
      some (.string k :: .table pairs :: stack) :=
    (execAll_singleton limit (.pushlstring k) _).trans
      (if_pos (by rw [List.length_cons, hstack]; exact hroom))
  rw [calls_append, calls_append, execAll_append, execAll_append, hkey, Option.bind_some,
    h (.string k :: .table pairs :: stack) (congrArg (· + 2) hstack), Option.bind_some]
  rfl

/-- The text behind an element, and behind the last one. -/
theorem ends_elements (ds : List Doc) (rest : List Byte) :
    Ends (renderElements ds true ++ chr ']' :: rest) := by
  cases ds with
  | nil => exact show (lit [',', ']', '}', '\x00']).contains (chr ']') by decide
  | cons d ds =>
    rw [renderElements, if_pos rfl]
    exact show (lit [',', ']', '}', '\x00']).contains (chr ',') by decide

theorem ends_members (ms : List (List Byte × Doc)) (rest : List Byte) :
    Ends (renderMembers ms true ++ chr '}' :: rest) := by
  cases ms with
  | nil => exact show (lit [',', ']', '}', '\x00']).contains (chr '}') by decide
  | cons m ms =>
    rw [renderMembers, if_pos rfl]
    exact show (lit [',', ']', '}', '\x00']).contains (chr ',') by decide

/-- The tokens that the parser reads. -/
abbrev tokenAt (env : Env ν) : List Byte → Next ν := nextToken nextNumberToken env

theorem tokenAt_string (str rest : List Byte) :
    tokenAt env (appendString str ++ rest) = ⟨appendString str ++ rest, .string str, rest⟩ :=
  nextToken_appendString nextNumberToken env str rest

section Loops

variable (size : Nat) {limit top : Nat} {value : Next ν → Except Error (Out ν × List Byte)}

theorem arrayLoop_gives {ds : List Doc} {d : Doc}
    (hvalue : ∀ d' ∈ d :: ds, ∀ rest, Ends rest →
      Gives (value (tokenAt env (d'.render ++ rest))) rest
        (PushesValue limit (top + 1) (d'.build read))) (fuel i : Nat) (rest : List Byte) :
    Gives (arrayLoop size (tokenAt env) value fuel i
        (tokenAt env (d.render ++ (renderElements ds true ++ chr ']' :: rest)))) rest
      (FillsTable limit top (addElements read (d :: ds) i)) := by
  induction ds generalizing d fuel i with
  | nil =>
    cases fuel with
    | zero => exact .inl rfl
    | succ fuel =>
      refine (hvalue d List.mem_cons_self _ (ends_elements [] rest)).bind fun out hout => ?_
      exact .inr ⟨_, rfl, hout.rawseti⟩
  | cons d' ds ih =>
    cases fuel with
    | zero => exact .inl rfl
    | succ fuel =>
      refine (hvalue d List.mem_cons_self _ (ends_elements (d' :: ds) rest)).bind fun out hout => ?_
      have hcomma : tokenAt env (renderElements (d' :: ds) true ++ chr ']' :: rest) =
          ⟨renderElements (d' :: ds) true ++ chr ']' :: rest, .comma,
            d'.render ++ (renderElements ds true ++ chr ']' :: rest)⟩ := by
        rw [renderElements, if_pos rfl, List.append_assoc, List.append_assoc]
        rfl
      have hrest := ih (fun d'' hd'' => hvalue d'' (List.mem_cons_of_mem d hd'')) fuel (i + 1)
      dsimp only
      rw [hcomma]
      refine hrest.bind fun more hmore => ?_
      exact .inr ⟨_, rfl, hout.rawseti.append hmore⟩

theorem objectLoop_gives (hroom : top + 1 < limit) {ms : List (List Byte × Doc)} {k : List Byte}
    {d : Doc}
    (hvalue : ∀ m ∈ (k, d) :: ms, ∀ rest, Ends rest →
      Gives (value (tokenAt env (m.2.render ++ rest))) rest
        (PushesValue limit (top + 2) (m.2.build read))) (fuel : Nat) (rest : List Byte) :
    Gives (objectLoop size (tokenAt env) value fuel
        (tokenAt env (appendString k ++ (chr ':' :: (d.render ++
          (renderMembers ms true ++ chr '}' :: rest)))))) rest
      (FillsTable limit top (addMembers read ((k, d) :: ms))) := by
  induction ms generalizing k d fuel with
  | nil =>
    cases fuel with
    | zero => exact .inl rfl
    | succ fuel =>
      rw [tokenAt_string]
      refine (hvalue (k, d) List.mem_cons_self _ (ends_members [] rest)).bind fun out hout => ?_
      exact .inr ⟨_, rfl, hout.rawset _ k hroom⟩
  | cons m ms ih =>
    obtain ⟨k', d'⟩ := m
    cases fuel with
    | zero => exact .inl rfl
    | succ fuel =>
      rw [tokenAt_string]
      refine (hvalue (k, d) List.mem_cons_self _
        (ends_members ((k', d') :: ms) rest)).bind fun out hout => ?_
      have hcomma : tokenAt env (renderMembers ((k', d') :: ms) true ++ chr '}' :: rest) =
          ⟨renderMembers ((k', d') :: ms) true ++ chr '}' :: rest, .comma,
            appendString k' ++ (chr ':' :: (d'.render ++
              (renderMembers ms true ++ chr '}' :: rest)))⟩ := by
        rw [renderMembers, if_pos rfl]
        simp only [List.append_assoc, List.cons_append, List.nil_append]
        rfl
      have hrest := ih (fun m hm => hvalue m (List.mem_cons_of_mem _ hm)) fuel
      dsimp only
      rw [hcomma]
      refine hrest.bind fun more hmore => ?_
      exact .inr ⟨_, rfl, (hout.rawset _ k hroom).append hmore⟩

end Loops

theorem tokenAt_null (rest : List Byte) :
    tokenAt env (lit "null".toList ++ rest) = ⟨lit "null".toList ++ rest, .null, rest⟩ := rfl

theorem tokenAt_boolean (b : Bool) (rest : List Byte) :
    tokenAt env ((Doc.boolean b).render ++ rest) =
      ⟨(Doc.boolean b).render ++ rest, .boolean b, rest⟩ := by
  cases b with
  | false => rfl
  | true => rfl

theorem tokenAt_array (ds : List Doc) (rest : List Byte) :
    tokenAt env ((Doc.array ds).render ++ rest) =
      ⟨(Doc.array ds).render ++ rest, .arrBegin, renderElements ds false ++ chr ']' :: rest⟩ := by
  rw [Doc.render, List.cons_append, List.cons_append, List.append_assoc]
  rfl

theorem tokenAt_object (ms : List (List Byte × Doc)) (rest : List Byte) :
    tokenAt env ((Doc.object ms).render ++ rest) =
      ⟨(Doc.object ms).render ++ rest, .objBegin, renderMembers ms false ++ chr '}' :: rest⟩ := by
  rw [Doc.render, List.cons_append, List.cons_append, List.append_assoc]
  rfl

theorem elements_cons (d : Doc) (ds : List Doc) (rest : List Byte) :
    renderElements (d :: ds) false ++ chr ']' :: rest =
      d.render ++ (renderElements ds true ++ chr ']' :: rest) := by
  rw [renderElements, if_neg Bool.false_ne_true, List.nil_append, List.append_assoc]

theorem members_cons (k : List Byte) (d : Doc) (ms : List (List Byte × Doc)) (rest : List Byte) :
    renderMembers ((k, d) :: ms) false ++ chr '}' :: rest =
      appendString k ++ (chr ':' :: (d.render ++ (renderMembers ms true ++ chr '}' :: rest))) := by
  rw [renderMembers, if_neg Bool.false_ne_true, List.nil_append]
  simp only [List.append_assoc, List.cons_append, List.nil_append]

/-- A value does not begin like the end of an array. -/
theorem token_ne_arrEnd {n : Nat} {d : Doc} (h : Fits (Readable env read) n d) {rest : List Byte}
    (hrest : Ends rest) : (tokenAt env (d.render ++ rest)).token ≠ .arrEnd := by
  cases h with
  | null => rw [Doc.render, tokenAt_null]; nofun
  | boolean b => rw [tokenAt_boolean]; nofun
  | number ht =>
    rw [Doc.render, tokenAt, nextToken_number ht hrest]
    dsimp only
    split
    · nofun
    · nofun
  | string s => rw [Doc.render, tokenAt_string]; nofun
  | array _ => rw [tokenAt_array]; nofun
  | object _ => rw [tokenAt_object]; nofun

section Values

variable (size : Nat) {limit m : Nat} (hgranted : ∀ top slots, env.checkstack top slots → top + slots ≤ limit)
  (hdepth : (m : Int) ≤ env.cfg.decodeMaxDepth)
  (hstack : ∀ top slots, top + slots ≤ 2 * m + 2 → env.checkstack top slots)

include hdepth hstack

theorem descend_ok {depth top slots : Nat} (hm : depth + 1 ≤ m) (htop : top ≤ 2 * depth + 1)
    (hslots : slots ≤ 3) (s : List Byte) : descend env size depth top slots s = .ok (depth + 1) := by
  rw [descend, if_pos]
  exact ⟨by omega, hstack top slots (by omega)⟩

include hgranted

theorem processValue_gives {n : Nat} {d : Doc} (h : Fits (Readable env read) n d)
    {fuel depth top : Nat} {rest : List Byte} (hrest : Ends rest) (hn : depth + n ≤ m)
    (htop : top ≤ 2 * depth + 1) (hroom : top < limit) :
    Gives (processValue size (tokenAt env) env fuel depth top (tokenAt env (d.render ++ rest))) rest
      (PushesValue limit top (d.build read)) := by
  have hpush : ∀ v : Tree ν, ∀ stack, stack.length = top → push limit v stack = some (v :: stack) :=
    fun v stack hs => if_pos (hs ▸ hroom)
  have hbind : ∀ (d : Nat) (f : Nat → Except Error (Out ν × List Byte)),
      ((.ok d : Except Error Nat) >>= f) = f d := fun d f => rfl
  induction h generalizing fuel depth top rest with
  | null =>
    cases fuel with
    | zero => exact .inl rfl
    | succ fuel =>
      rw [Doc.render, tokenAt_null]
      exact .inr ⟨_, rfl, fun stack hs => (execAll_singleton _ _ _).trans (hpush _ stack hs)⟩
  | boolean b =>
    cases fuel with
    | zero => exact .inl rfl
    | succ fuel =>
      rw [tokenAt_boolean]
      exact .inr ⟨_, rfl, fun stack hs => (execAll_singleton _ _ _).trans (hpush _ stack hs)⟩
  | @number n t ht =>
    cases fuel with
    | zero => exact .inl rfl
    | succ fuel =>
      rw [Doc.render, tokenAt, nextToken_number ht hrest, Doc.build]
      by_cases hlong : t.length > 14
      · rw [if_pos hlong, if_pos hlong]
        exact .inr ⟨_, rfl, fun stack hs => (execAll_singleton _ _ _).trans (hpush _ stack hs)⟩
      · rw [if_neg hlong, if_neg hlong]
        exact .inr ⟨_, rfl, fun stack hs => (execAll_singleton _ _ _).trans (hpush _ stack hs)⟩
  | string s =>
    cases fuel with
    | zero => exact .inl rfl
    | succ fuel =>
      rw [Doc.render, tokenAt_string]
      exact .inr ⟨_, rfl, fun stack hs => (execAll_singleton _ _ _).trans (hpush _ stack hs)⟩
  | @array n ds hds ih =>
    cases fuel with
    | zero => exact .inl rfl
    | succ fuel =>
      have hdescend := descend_ok size hdepth hstack (by omega : depth + 1 ≤ m) htop
        (by decide : 2 ≤ 3)
      have hfree := hgranted top 2 (hstack top 2 (by omega))
      rw [tokenAt_array, processValue]
      simp only [hdescend, hbind]
      cases ds with
      | nil =>
        exact .inr ⟨_, rfl, fun stack hs => (execAll_singleton _ _ _).trans (hpush _ stack hs)⟩
      | cons d ds =>
        have hne := token_ne_arrEnd (hds d List.mem_cons_self) (ends_elements ds rest)
        have hloop := arrayLoop_gives size (fun d' hd' rest' hrest' =>
          @ih d' hd' fuel (depth + 1) (top + 1) rest' hrest' (by omega) (by omega) (by omega)
            (fun v stack hs => if_pos (hs ▸ by omega))) fuel 1 rest
        rw [elements_cons]
        split
        · rename_i hend
          exact absurd hend hne
        · exact hloop.bind fun out hout => .inr ⟨_, rfl, hout.newtable hroom⟩
  | @object n ms hms ih =>
    cases fuel with
    | zero => exact .inl rfl
    | succ fuel =>
      have hdescend := descend_ok size hdepth hstack (by omega : depth + 1 ≤ m) htop
        (by decide : 3 ≤ 3)
      have hfree := hgranted top 3 (hstack top 3 (by omega))
      rw [tokenAt_object, processValue]
      simp only [hdescend, hbind]
      cases ms with
      | nil =>
        exact .inr ⟨_, rfl, fun stack hs => (execAll_singleton _ _ _).trans (hpush _ stack hs)⟩
      | cons member ms =>
        obtain ⟨k, d⟩ := member
        have hloop := objectLoop_gives size (by omega : top + 1 < limit)
          (fun member hmember rest' hrest' =>
            @ih member hmember fuel (depth + 1) (top + 2) rest' hrest' (by omega) (by omega)
              (by omega)
              (fun v stack hs => if_pos (hs ▸ by omega))) fuel rest
        rw [members_cons, tokenAt_string] at *
        exact hloop.bind fun out hout => .inr ⟨_, rfl, hout.newtable hroom⟩

end Values

/-! ## Whole texts -/

theorem ne_zero_of_plain {t : List Byte} (h : ∀ c ∈ t, char2escape c = none) : (0 : Byte) ∉ t := by
  intro hzero
  have hnone := h 0 hzero
  revert hnone
  decide

theorem zero_not_mem_appendString (s : List Byte) : (0 : Byte) ∉ appendString s := by
  have hescape : ∀ c : Byte, (0 : Byte) ∉ (char2escape c).getD [c] := by decide +kernel
  have hbody : (0 : Byte) ∉ escape s := by
    intro hmem
    obtain ⟨c, -, hc⟩ := List.mem_flatMap.mp hmem
    exact hescape c hc
  rw [appendString, List.mem_append, List.mem_cons, List.mem_singleton]
  rintro ((h | h) | h)
  · exact absurd h (by decide)
  · exact hbody h
  · exact absurd h (by decide)

theorem zero_not_mem_elements {ds : List Doc} (h : ∀ d ∈ ds, (0 : Byte) ∉ d.render)
    (comma : Bool) : (0 : Byte) ∉ renderElements ds comma := by
  induction ds generalizing comma with
  | nil => exact List.not_mem_nil
  | cons d ds ih =>
    obtain ⟨hd, hds⟩ := List.forall_mem_cons.mp h
    have hcomma : (0 : Byte) ∉ if comma then [chr ','] else [] := by revert comma; decide
    rw [renderElements, List.mem_append, List.mem_append, not_or, not_or]
    exact ⟨⟨hcomma, hd⟩, ih hds true⟩

theorem zero_not_mem_members {ms : List (List Byte × Doc)} (h : ∀ m ∈ ms, (0 : Byte) ∉ m.2.render)
    (comma : Bool) : (0 : Byte) ∉ renderMembers ms comma := by
  induction ms generalizing comma with
  | nil => exact List.not_mem_nil
  | cons m ms ih =>
    obtain ⟨hm, hms⟩ := List.forall_mem_cons.mp h
    have hcomma : (0 : Byte) ∉ if comma then [chr ','] else [] := by revert comma; decide
    have hcolon : (0 : Byte) ∉ appendString m.1 ++ [chr ':'] := by
      rw [List.mem_append, not_or]
      exact ⟨zero_not_mem_appendString m.1, by decide⟩
    rw [renderMembers, List.mem_append, List.mem_append, List.mem_append, not_or, not_or, not_or]
    exact ⟨⟨⟨hcomma, hcolon⟩, hm⟩, ih hms true⟩

/-- The text of a document has no terminator in it. -/
theorem zero_not_mem_render {n : Nat} {d : Doc} (h : Fits (Readable env read) n d) :
    (0 : Byte) ∉ d.render := by
  induction h with
  | null => rw [Doc.render]; decide
  | boolean b => rw [Doc.render]; revert b; decide
  | number ht => exact ne_zero_of_plain ht.plain
  | string s => exact zero_not_mem_appendString s
  | array _ ih =>
    have hinner := zero_not_mem_elements ih false
    rw [Doc.render, List.mem_append, List.mem_cons, List.mem_singleton, not_or, not_or]
    exact ⟨⟨by decide, hinner⟩, by decide⟩
  | object _ ih =>
    have hinner := zero_not_mem_members ih false
    rw [Doc.render, List.mem_append, List.mem_cons, List.mem_singleton, not_or, not_or]
    exact ⟨⟨by decide, hinner⟩, by decide⟩

theorem decode_render {limit m : Nat}
    (hgranted : ∀ top slots, env.checkstack top slots → top + slots ≤ limit) (hlimit : 1 < limit)
    (hdepth : (m : Int) ≤ env.cfg.decodeMaxDepth)
    (hstack : ∀ top slots, top + slots ≤ 2 * m + 2 → env.checkstack top slots) {d : Doc}
    (hd : Fits (Readable env read) m d) :
    ∃ out, decode nextNumberToken env d.render = .ok out ∧
      execAll limit out.calls [.string d.render] = some [d.build read, .string d.render] := by
  have hzero := zero_not_mem_render hd
  have hwide : ¬(2 ≤ d.render.length ∧ (d.render.headD 0 = 0 ∨ d.render.tail.headD 0 = 0)) := by
    rintro ⟨hlen, hbytes⟩
    match d.render, hlen, hbytes, hzero with
    | a :: b :: text, _, .inl ha, hzero => exact hzero (ha ▸ List.mem_cons_self)
    | a :: b :: text, _, .inr hb, hzero =>
      exact hzero (List.mem_cons_of_mem a (hb ▸ List.mem_cons_self))
  have hvalue := @processValue_gives ν env read d.render.length limit m hgranted hdepth hstack m d hd
    (d.render.length + 1) 0 1 [] ends_nil (by omega) (by omega) hlimit
  have hfuel := decode_ne_exhausted takes_nextNumberToken env d.render
  rw [List.append_nil] at hvalue
  rw [decode, if_neg hwide] at hfuel ⊢
  rcases hvalue with hx | ⟨out, hx, hout⟩
  · rw [tokenAt] at hx
    simp only [hx] at hfuel
    exact absurd rfl hfuel
  · rw [tokenAt] at hx
    refine ⟨out, ?_, hout [.string d.render] rfl⟩
    simp only [hx]
    rfl

/-- What is serialised is the text of a document that the decoder reads. -/
theorem encode_render {enc : EncodeEnv ν}
    (hnum : ∀ x, enc.isinf x = false → enc.isnan x = false → Readable env read (enc.gfmt x))
    (hplain : PlainNumbers enc) (hinvalid : enc.cfg.invalidNumbers ≠ .on) {v : Value ν}
    {text : List Byte} (h : encode enc v = .ok text) :
    ∃ d, docOf enc enc.cfg.maxDepth 1 v = .ok d ∧ text = d.render ∧
      Fits (Readable env read) enc.cfg.maxDepth d := by
  have hwrites : WritesOnly enc (Readable env read) := by
    intro x d hd n
    unfold numberOf at hd
    split at hd
    · cases hd
      exact .null
    · rename_i hnull
      by_cases hx : (enc.isinf x || enc.isnan x) = true
      · -- Only the setting `null` writes such a number.
        cases hcfg : enc.cfg.invalidNumbers with
        | off =>
          rw [appendNumber, hcfg] at hd
          dsimp only at hd
          rw [if_pos hx] at hd
          cases hd
        | on => exact absurd hcfg hinvalid
        | null => exact absurd ⟨hcfg, hx⟩ hnull
      · obtain ⟨hinf, hnan⟩ := Bool.or_eq_false_iff.mp (Bool.not_eq_true _ ▸ hx)
        have htext : appendNumber enc x = .ok (enc.gfmt x) := by
          rw [appendNumber, hinf, hnan]
          cases enc.cfg.invalidNumbers with
          | off => rfl
          | on => rfl
          | null => rfl
        rw [htext] at hd
        cases hd
        exact .number (hnum x hinf hnan)
  rw [encode, appendData_eq hplain] at h
  cases hd : docOf enc enc.cfg.maxDepth 1 v with
  | error e =>
    rw [hd] at h
    cases h
  | ok d =>
    rw [hd] at h
    cases h
    exact ⟨d, rfl, rfl, fits_docOf hwrites hd⟩

/-- What is serialised is accepted again, and the decoder builds the value of the document: its
strings byte by byte, its short numbers as they are read, its long numbers as strings. -/
theorem decode_encode {enc : EncodeEnv ν} {limit : Nat}
    (hnum : ∀ x, enc.isinf x = false → enc.isnan x = false → Readable env read (enc.gfmt x))
    (hplain : PlainNumbers enc) (hinvalid : enc.cfg.invalidNumbers ≠ .on)
    (hdepth : (enc.cfg.maxDepth : Int) ≤ env.cfg.decodeMaxDepth)
    (hgranted : ∀ top slots, env.checkstack top slots → top + slots ≤ limit) (hlimit : 1 < limit)
    (hstack : ∀ top slots, top + slots ≤ 2 * enc.cfg.maxDepth + 2 → env.checkstack top slots)
    {v : Value ν} {text : List Byte} (h : encode enc v = .ok text) :
    ∃ d out, docOf enc enc.cfg.maxDepth 1 v = .ok d ∧
      decode nextNumberToken env text = .ok out ∧
      execAll limit out.calls [.string text] = some [d.build read, .string text] := by
  obtain ⟨d, hd, rfl, hfits⟩ := encode_render hnum hplain hinvalid h
  obtain ⟨out, hout, hexec⟩ := decode_render hgranted hlimit hdepth hstack hfits
  exact ⟨d, out, hd, hout, hexec⟩

/-! ## Decimal digits -/

theorem headD_printNat {x : Nat} (hx : x ≠ 0) : (printNat x).headD 0 ≠ chr '0' := by
  have hne : Nat.digits 10 x ≠ [] := Nat.digits_ne_nil_iff_ne_zero.mpr hx
  have hlast := Nat.getLast_digit_ne_zero 10 hx
  have hlt : (Nat.digits 10 x).getLast hne < 10 :=
    Nat.digits_lt_base (by decide) (List.getLast_mem hne)
  have hhead : (printNat x).headD 0 = digit ((Nat.digits 10 x).getLast hne) := by
    rw [printNat, if_neg hx]
    rw [List.headD_eq_head?_getD, List.head?_map, List.head?_reverse,
      List.getLast?_eq_some_getLast hne]
    rfl
  rw [hhead]
  intro heq
  have hnat := congrArg BitVec.toNat heq
  rw [toNat_digit hlt] at hnat
  have hzero : (chr '0').toNat = 48 := by decide
  omega

theorem not_isDigit_of_ends {rest : List Byte} (h : Ends rest) : isDigit (rest.headD 0) = false ∧
    rest.headD 0 ||| 0x20 ≠ chr 'x' := by
  have hall : ∀ c : Byte, (lit [',', ']', '}', '\x00']).contains c →
      isDigit c = false ∧ c ||| 0x20 ≠ chr 'x' := by decide +kernel
  exact hall _ h

theorem takeWhile_printNat (x : Nat) {rest : List Byte} (hrest : Ends rest) :
    (printNat x ++ rest).takeWhile isDigit = printNat x := by
  rw [List.takeWhile_append_of_pos fun c hc => isDigit_of_mem_printNat hc]
  cases rest with
  | nil => rw [List.takeWhile_nil, List.append_nil]
  | cons c rest =>
    have hc : isDigit c = false := (not_isDigit_of_ends hrest).1
    rw [List.takeWhile_cons_of_neg (by rw [hc]; exact Bool.false_ne_true), List.append_nil]

theorem readable_decimal (x : Nat) : Readable Env.decimal digitsValue (printNat x) := by
  have hdigit : isDigit ((printNat x).headD 0) := by
    cases h : printNat x with
    | nil => exact absurd h (printNat_ne_nil x)
    | cons c t => exact isDigit_of_mem_printNat (h ▸ List.mem_cons_self)
  have hescape : ∀ c : Byte, isDigit c → char2escape c = none := by decide +kernel
  have hsign : ∀ c : Byte, isDigit c → c ≠ chr '+' ∧ c ≠ chr '-' ∧ c.toInt ≤ 57 := by
    decide +kernel
  refine ⟨.inr hdigit, fun c hc => hescape c (isDigit_of_mem_printNat hc), ?_, ?_⟩
  · intro rest hrest
    obtain ⟨hplus, hminus, hle⟩ := hsign _ hdigit
    have hhead : (printNat x ++ rest).headD 0 = (printNat x).headD 0 := by
      cases h : printNat x with
      | nil => exact absurd h (printNat_ne_nil x)
      | cons c t => rfl
    rw [isInvalidNumber, hhead, if_neg hplus]
    dsimp only
    rw [if_neg hminus, hhead]
    by_cases hx : x = 0
    · obtain ⟨hnot, hhex⟩ := not_isDigit_of_ends hrest
      have hprint : printNat 0 = [chr '0'] := rfl
      rw [hx, hprint, List.headD_cons, if_pos rfl, List.singleton_append, List.tail_cons, hnot]
      exact decide_eq_false (not_or.mpr ⟨hhex, Bool.false_ne_true⟩)
    · rw [if_neg (headD_printNat hx), if_pos hle]
  · intro rest hrest
    have htake := takeWhile_printNat x hrest
    have hvalue : digitsValue (printNat x ++ rest) = digitsValue (printNat x) := by
      rw [digitsValue, htake, digitsValue, List.takeWhile_eq_self_iff.mpr fun c hc =>
        isDigit_of_mem_printNat hc]
    show (digitsValue (printNat x ++ rest), ((printNat x ++ rest).takeWhile isDigit).length) = _
    rw [hvalue, htake]

/-- `{"a":[1,123456789012345]}` as it is, but for the long number. -/
def nested : Nat → Table Nat
  | 0 => [(.string (lit ['a']), .table 1)]
  | 1 => [(.number 1, .number 1), (.number 2, .number 123456789012345)]
  | _ => []

theorem decode_encode_nested : ∃ d out,
    docOf (.decimal nested) 1000 1 (.table 0) = .ok d ∧
      decode nextNumberToken Env.decimal
        (lit "\x7b\"a\":[1,123456789012345]\x7d".toList) = .ok out ∧
      execAll 8000 out.calls [.string (lit "\x7b\"a\":[1,123456789012345]\x7d".toList)] =
        some [d.build digitsValue, .string (lit "\x7b\"a\":[1,123456789012345]\x7d".toList)] :=
  @decode_encode Nat Env.decimal digitsValue (.decimal nested) 8000
    (fun x _ _ => readable_decimal x) (plainNumbers_decimal nested) (by decide) (by decide)
    (fun _ _ h => of_decide_eq_true h) (by decide)
    (fun top slots h => decide_eq_true (le_trans h (by decide))) (.table 0)
    (lit "\x7b\"a\":[1,123456789012345]\x7d".toList) (by decide +kernel)

end EventServer.Json
