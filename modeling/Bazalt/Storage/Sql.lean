import Bazalt.Lib.Literals

/-!
# The query for flows

The filter of a request becomes a query in SQL.  Its texts go into the query as quoted literals, and
whatever they are, ClickHouse reads the same query with other literals in it.
-/

namespace Bazalt.Storage

open Lib

/-- The literals of ClickHouse; `denotes` is what a character after a backslash stands for. -/
def clickHouse (denotes : Char → List Char) : Quoting Char := ⟨'\\', '\'', denotes⟩

/-- `str::replace` of one character. -/
def replace (c : Char) (by_ v : List Char) : List Char := v.flatMap fun x ↦ if x = c then by_ else [x]

def quote (v : List Char) : List Char :=
  '\'' :: (replace '\'' ['\\', '\''] (replace '\\' ['\\', '\\'] v) ++ ['\''])

def ident (v : List Char) : List Char := v.filter fun c ↦ c.isAlphanum || c == '_'

/-- The texts of the filter; an identifier or a time is the text that is written for it. -/
structure TrafficFilter where
  service : Option (List Char) := none
  srcIp : Option (List Char) := none
  dstIp : Option (List Char) := none
  port : Option ℕ := none
  protocol : Option (List Char) := none
  patternId : Option (List Char) := none
  favorite : Option Bool := none
  userAgent : Option (List Char) := none
  userAgentEquals : Option (List Char) := none
  userAgentNotContains : Option (List Char) := none
  userAgentRegex : Option (List Char) := none
  from_ : Option (List Char) := none
  to_ : Option (List Char) := none
  limit : Option ℕ := none
  offset : Option ℕ := none
  deriving DecidableEq, Repr

/-- The same filter with other texts in it. -/
def TrafficFilter.blank (f : TrafficFilter) : TrafficFilter :=
  let hide (v : Option (List Char)) : Option (List Char) := v.map fun _ ↦ []
  { f with
    service := hide f.service
    srcIp := hide f.srcIp
    dstIp := hide f.dstIp
    protocol := hide f.protocol
    patternId := hide f.patternId
    userAgent := hide f.userAgent
    userAgentEquals := hide f.userAgentEquals
    userAgentNotContains := hide f.userAgentNotContains
    userAgentRegex := hide f.userAgentRegex
    from_ := hide f.from_
    to_ := hide f.to_ }

def decimal : ℤ → List Char
  | .ofNat n => Nat.toDigits 10 n
  | .negSucc n => '-' :: Nat.toDigits 10 (n + 1)

/-- A value in the place of the braces. -/
def withValue (before after : String) (v : List Char) : List Char :=
  before.toList ++ quote v ++ after.toList

/-- A table of the database, and a value. -/
def withTable (before middle after : String) (database v : List Char) : List Char :=
  before.toList ++ ident database ++ withValue middle after v

/-- The flows that a pattern with one of the revisions ignores. -/
def ignoredPart (database : List Char) (activeIgnores : List (List Char × ℤ)) : List Char :=
  let refs := activeIgnores.map fun e ↦
    withValue "(toUUID(" "), " e.1 ++ decimal e.2 ++ ")".toList
  "flow_id NOT IN (SELECT flow_id FROM ".toList ++ ident database ++
    ".matches FINAL WHERE action = 'ignore' AND (pattern_id, pattern_revision) IN (".toList ++
      ",".toList.intercalate refs ++ "))".toList

def portPart (port : ℕ) : List Char :=
  "(src_port = ".toList ++ decimal port ++ " OR dst_port = ".toList ++ decimal port ++ ")".toList

def favoritePart (favorites : List (List Char)) (favorite : Bool) : List Char :=
  (if favorite then "flow_id IN (" else "flow_id NOT IN (").toList ++
    ",".toList.intercalate (favorites.map (withValue "toUUID(" ")")) ++ ")".toList

def whereParts (database : List Char) (filter : TrafficFilter) (favorites : List (List Char))
    (activeIgnores : List (List Char × ℤ)) : List (List Char) :=
  (if activeIgnores = [] then [] else [ignoredPart database activeIgnores]) ++
  (filter.service.map (withValue "service = " "")).toList ++
  (filter.srcIp.map (withValue "src_ip = " "")).toList ++
  (filter.dstIp.map (withValue "dst_ip = " "")).toList ++
  (filter.port.map portPart).toList ++
  (filter.protocol.map fun v ↦ withValue "protocol = " "" (v.map Char.toLower)).toList ++
  (filter.from_.map (withValue "started_at >= parseDateTime64BestEffort(" ")")).toList ++
  (filter.to_.map (withValue "started_at <= parseDateTime64BestEffort(" ")")).toList ++
  (filter.patternId.map (withTable "flow_id IN (SELECT flow_id FROM "
    ".matches FINAL WHERE pattern_id = toUUID(" "))" database)).toList ++
  (filter.userAgent.map (withTable "flow_id IN (SELECT flow_id FROM "
    ".http_messages FINAL WHERE positionCaseInsensitiveUTF8(ifNull(user_agent,''), " ") > 0)"
    database)).toList ++
  (filter.userAgentEquals.map (withTable "flow_id IN (SELECT flow_id FROM "
    ".http_messages FINAL WHERE lowerUTF8(ifNull(user_agent,'')) = lowerUTF8(" "))"
    database)).toList ++
  (filter.userAgentNotContains.map (withTable "flow_id NOT IN (SELECT flow_id FROM "
    ".http_messages FINAL WHERE positionCaseInsensitiveUTF8(ifNull(user_agent,''), " ") > 0)"
    database)).toList ++
  (filter.userAgentRegex.map (withTable "flow_id IN (SELECT flow_id FROM "
    ".http_messages FINAL WHERE match(ifNull(user_agent,''), " "))" database)).toList ++
  (if favorites = [] then [] else (filter.favorite.map (favoritePart favorites)).toList)

def selectText : String :=
  "\n            SELECT flow_id, started_at, ended_at, src_ip, dst_ip, src_port, dst_port, " ++
  "protocol,\n                   service, packets_c2s, packets_s2c, bytes_c2s, bytes_s2c, " ++
  "truncated\n            FROM "

/-- The query, unless no flow can be found. -/
def queryFlows (database : List Char) (filter : TrafficFilter) (favorites : List (List Char))
    (activeIgnores : List (List Char × ℤ)) : Option (List Char) :=
  if favorites = [] ∧ filter.favorite = some true then none
  else
    let parts := whereParts database filter favorites activeIgnores
    let whereSql := if parts = [] then [] else "WHERE ".toList ++ " AND ".toList.intercalate parts
    some (selectText.toList ++ ident database ++ ".flows FINAL\n            ".toList ++ whereSql ++
      "\n            ORDER BY started_at DESC\n            LIMIT ".toList ++
      decimal (min (filter.limit.getD 100) 500) ++ " OFFSET ".toList ++
      decimal (filter.offset.getD 0) ++ "\n            FORMAT JSONEachRow\n        ".toList)

/-! ## Quoting -/

variable {denotes : Char → List Char}

/-- The two replacements put a backslash before every backslash and every quote. -/
theorem quote_eq (denotes : Char → List Char) (v : List Char) :
    quote v = (clickHouse denotes).quoted v := by
  have hreplace : replace '\'' ['\\', '\''] (replace '\\' ['\\', '\\'] v) =
      (clickHouse denotes).escaped v := by
    rw [replace, replace, List.flatMap_assoc, Quoting.escaped]
    refine List.flatMap_congr fun x _ ↦ ?_
    by_cases hbackslash : x = '\\'
    · subst hbackslash
      rfl
    · by_cases hquote : x = '\''
      · subst hquote
        rfl
      · simp [clickHouse, hbackslash, hquote]
  rw [quote, hreplace]
  rfl

theorem clickHouse_plain (hbackslash : denotes '\\' = ['\\']) (hquote : denotes '\'' = ['\'']) :
    (clickHouse denotes).Plain :=
  ⟨show '\\' ≠ '\'' by decide, hbackslash, hquote⟩

/-! ## Texts of the program -/

/-- A text of the program has whole literals, no escapes, and starts outside of a literal. -/
structure Fixed (s : String) : Prop where
  lexes : ((clickHouse fun c ↦ [c]).outline s.toList).isSome = true
  escape : '\\' ∉ s.toList
  head : s.toList.head? ≠ some '\''

instance (s : String) : Decidable (Fixed s) :=
  decidable_of_iff (((clickHouse fun c ↦ [c]).outline s.toList).isSome = true ∧
    '\\' ∉ s.toList ∧ s.toList.head? ≠ some '\'') ⟨fun ⟨h, h', h''⟩ ↦ ⟨h, h', h''⟩,
      fun ⟨h, h', h''⟩ ↦ ⟨h, h', h''⟩⟩

/-- A value can follow the text. -/
def Opens (s : String) : Prop :=
  Fixed s ∧ s.toList ≠ [] ∧ s.toList.getLast? ≠ some '\''

instance (s : String) : Decidable (Opens s) := inferInstanceAs (Decidable (_ ∧ _ ∧ _))

theorem Fixed.alike {s : String} (h : Fixed s) (denotes : Char → List Char) :
    (clickHouse denotes).Alike s.toList s.toList := by
  obtain ⟨tokens, htokens⟩ := Option.isSome_iff_exists.mp h.lexes
  have hlex : (clickHouse denotes).lexFrom none s.toList =
      (clickHouse fun c ↦ [c]).lexFrom none s.toList :=
    Quoting.lexFrom_congr (clickHouse fun c ↦ [c]) (clickHouse denotes) rfl rfl h.escape
  exact .refl ((congrArg (Option.map (List.map Token.outline)) hlex).trans htokens) h.head

section

variable (hplain : (clickHouse denotes).Plain)
include hplain

theorem alike_withValue {before after : String} (hbefore : Opens before) (hafter : Fixed after)
    (v v' : List Char) :
    (clickHouse denotes).Alike (withValue before after v) (withValue before after v') := by
  rw [withValue, withValue, quote_eq denotes, quote_eq denotes]
  exact ((hbefore.1.alike denotes).quoted hplain hbefore.2.1 hbefore.2.2 v v').append
    (hafter.alike denotes)

omit hplain in
theorem alike_ident (database : List Char) :
    (clickHouse denotes).Alike (ident database) (ident database) := by
  refine Quoting.alike_of_not_mem fun hmem ↦ ?_
  have hallowed := (List.mem_filter.mp hmem).2
  revert hallowed
  exact Bool.eq_false_iff.mp rfl

variable (denotes) in
omit hplain in
theorem alike_fixed {s : String} (h : Fixed s) : (clickHouse denotes).Alike s.toList s.toList :=
  h.alike denotes

omit hplain in
theorem alike_decimal (z : ℤ) : (clickHouse denotes).Alike (decimal z) (decimal z) := by
  have hdigits : ∀ n, '\'' ∉ Nat.toDigits 10 n := fun n hmem ↦ by
    have hdigit := Nat.isDigit_of_mem_toDigits (by norm_num) (by norm_num) hmem
    revert hdigit
    decide
  refine Quoting.alike_of_not_mem fun hmem ↦ ?_
  cases z with
  | ofNat n => exact hdigits n hmem
  | negSucc n =>
      rcases List.mem_cons.mp hmem with hsign | hmem
      · revert hsign
        exact (show ¬ '\'' = '-' by decide)
      · exact hdigits _ hmem

theorem alike_withTable {before middle after : String} (hbefore : Fixed before)
    (hmiddle : Opens middle) (hafter : Fixed after) (database v v' : List Char) :
    (clickHouse denotes).Alike (withTable before middle after database v)
      (withTable before middle after database v') :=
  ((hbefore.alike denotes).append (alike_ident database)).append
    (alike_withValue hplain hmiddle hafter v v')

theorem alike_ignoredPart (database : List Char) (activeIgnores : List (List Char × ℤ)) :
    (clickHouse denotes).Alike (ignoredPart database activeIgnores)
      (ignoredPart database activeIgnores) := by
  have hrefs : List.Forall₂ (clickHouse denotes).Alike
      (activeIgnores.map fun e ↦ withValue "(toUUID(" "), " e.1 ++ decimal e.2 ++ ")".toList)
      (activeIgnores.map fun e ↦ withValue "(toUUID(" "), " e.1 ++ decimal e.2 ++ ")".toList) := by
    refine List.forall₂_map_left_iff.mpr (List.forall₂_map_right_iff.mpr ?_)
    refine List.forall₂_same.mpr fun e _ ↦ ?_
    have hvalue : (clickHouse denotes).Alike (withValue "(toUUID(" "), " e.1)
        (withValue "(toUUID(" "), " e.1) :=
      alike_withValue hplain (by decide +kernel) (by decide +kernel) e.1 e.1
    exact (hvalue.append (alike_decimal e.2)).append (alike_fixed denotes (by decide +kernel))
  have hstart := (alike_fixed denotes (s := "flow_id NOT IN (SELECT flow_id FROM ")
    (by decide +kernel)).append (alike_ident database)
  have hmiddle := hstart.append (alike_fixed denotes
    (s := ".matches FINAL WHERE action = 'ignore' AND (pattern_id, pattern_revision) IN (")
    (by decide +kernel))
  have hlist := (alike_fixed denotes (s := ",") (by decide +kernel)).intercalate hrefs
  exact (hmiddle.append hlist).append (alike_fixed denotes (by decide +kernel))

omit hplain in
theorem alike_portPart (port : ℕ) : (clickHouse denotes).Alike (portPart port) (portPart port) := by
  have hfirst := (alike_fixed denotes (s := "(src_port = ") (by decide +kernel)).append
    (alike_decimal port)
  have hor := alike_fixed denotes (s := " OR dst_port = ") (by decide +kernel)
  have hsecond := (hfirst.append hor).append (alike_decimal port)
  exact hsecond.append (alike_fixed denotes (by decide +kernel))

theorem alike_favoritePart (favorites : List (List Char)) (favorite : Bool) :
    (clickHouse denotes).Alike (favoritePart favorites favorite)
      (favoritePart favorites favorite) := by
  have hids : List.Forall₂ (clickHouse denotes).Alike
      (favorites.map (withValue "toUUID(" ")")) (favorites.map (withValue "toUUID(" ")")) := by
    refine List.forall₂_map_left_iff.mpr (List.forall₂_map_right_iff.mpr ?_)
    exact List.forall₂_same.mpr fun v _ ↦
      alike_withValue hplain (by decide +kernel) (by decide +kernel) v v
  have hstart : (clickHouse denotes).Alike
      (if favorite then "flow_id IN (" else "flow_id NOT IN (").toList
      (if favorite then "flow_id IN (" else "flow_id NOT IN (").toList := by
    cases favorite <;> exact alike_fixed denotes (by decide +kernel)
  exact (hstart.append ((alike_fixed denotes (s := ",") (by decide +kernel)).intercalate hids)).append
    (alike_fixed denotes (by decide +kernel))

omit hplain in
/-- The part of the query for a field, and for the field without its text. -/
theorem forall₂_hidden {part : List Char → List Char}
    (h : ∀ v v', (clickHouse denotes).Alike (part v) (part v')) (field : Option (List Char)) :
    List.Forall₂ (clickHouse denotes).Alike (field.map part).toList
      ((field.map fun _ ↦ []).map part).toList := by
  cases field with
  | none => exact .nil
  | some v => exact .cons (h v []) .nil

theorem alike_whereParts (database : List Char) (filter : TrafficFilter)
    (favorites : List (List Char)) (activeIgnores : List (List Char × ℤ)) :
    List.Forall₂ (clickHouse denotes).Alike (whereParts database filter favorites activeIgnores)
      (whereParts database filter.blank favorites activeIgnores) := by
  have hfield : ∀ {before after : String}, Opens before → Fixed after →
      ∀ field : Option (List Char), List.Forall₂ (clickHouse denotes).Alike
        (field.map (withValue before after)).toList
        ((field.map fun _ ↦ []).map (withValue before after)).toList :=
    fun hbefore hafter ↦ forall₂_hidden (alike_withValue hplain hbefore hafter)
  have htable : ∀ {before middle after : String}, Fixed before → Opens middle → Fixed after →
      ∀ field : Option (List Char), List.Forall₂ (clickHouse denotes).Alike
        (field.map (withTable before middle after database)).toList
        ((field.map fun _ ↦ []).map (withTable before middle after database)).toList :=
    fun hbefore hmiddle hafter ↦
      forall₂_hidden (alike_withTable hplain hbefore hmiddle hafter database)
  unfold whereParts
  repeat' apply List.rel_append
  · split_ifs
    · exact .nil
    · exact .cons (alike_ignoredPart hplain database activeIgnores) .nil
  · exact hfield (by decide +kernel) (by decide +kernel) filter.service
  · exact hfield (by decide +kernel) (by decide +kernel) filter.srcIp
  · exact hfield (by decide +kernel) (by decide +kernel) filter.dstIp
  · change List.Forall₂ _ _ (filter.port.map portPart).toList
    cases filter.port with
    | none => exact .nil
    | some port => exact .cons (alike_portPart port) .nil
  · exact forall₂_hidden (fun v v' ↦ alike_withValue hplain (by decide +kernel) (by decide +kernel)
      (v.map Char.toLower) (v'.map Char.toLower)) filter.protocol
  · exact hfield (by decide +kernel) (by decide +kernel) filter.from_
  · exact hfield (by decide +kernel) (by decide +kernel) filter.to_
  · exact htable (by decide +kernel) (by decide +kernel) (by decide +kernel) filter.patternId
  · exact htable (by decide +kernel) (by decide +kernel) (by decide +kernel) filter.userAgent
  · exact htable (by decide +kernel) (by decide +kernel) (by decide +kernel) filter.userAgentEquals
  · exact htable (by decide +kernel) (by decide +kernel) (by decide +kernel)
      filter.userAgentNotContains
  · exact htable (by decide +kernel) (by decide +kernel) (by decide +kernel) filter.userAgentRegex
  · change List.Forall₂ _ _
      (if favorites = [] then [] else (filter.favorite.map (favoritePart favorites)).toList)
    split_ifs
    · exact .nil
    · cases filter.favorite with
      | none => exact .nil
      | some favorite => exact .cons (alike_favoritePart hplain favorites favorite) .nil

theorem alike_queryFlows {database text : List Char} {filter : TrafficFilter}
    {favorites : List (List Char)} {activeIgnores : List (List Char × ℤ)}
    (h : queryFlows database filter favorites activeIgnores = some text) :
    ∃ blank, queryFlows database filter.blank favorites activeIgnores = some blank ∧
      (clickHouse denotes).Alike text blank := by
  have hparts := alike_whereParts hplain database filter favorites activeIgnores
  unfold queryFlows at h ⊢
  split_ifs at h with hempty
  obtain rfl := Option.some.inj h
  rw [if_neg (show ¬ (favorites = [] ∧ filter.blank.favorite = some true) from hempty)]
  have hflows := alike_fixed denotes (s := ".flows FINAL\n            ") (by decide +kernel)
  have hselect := ((alike_fixed denotes (s := selectText) (by decide +kernel)).append
    (alike_ident database)).append hflows
  have hwhere : ∀ {parts parts' : List (List Char)},
      List.Forall₂ (clickHouse denotes).Alike parts parts' → (clickHouse denotes).Alike
        (if parts = [] then [] else "WHERE ".toList ++ " AND ".toList.intercalate parts)
        (if parts' = [] then [] else "WHERE ".toList ++ " AND ".toList.intercalate parts') := by
    intro parts parts' h
    cases h with
    | nil => exact Quoting.alike_of_not_mem (by simp)
    | cons hpart hrest =>
        rw [if_neg (List.cons_ne_nil _ _), if_neg (List.cons_ne_nil _ _)]
        exact (alike_fixed denotes (by decide +kernel)).append
          ((alike_fixed denotes (by decide +kernel)).intercalate (.cons hpart hrest))
  refine ⟨_, rfl, ?_⟩
  have horder := (hselect.append (hwhere hparts)).append (alike_fixed denotes
    (s := "\n            ORDER BY started_at DESC\n            LIMIT ") (by decide +kernel))
  have hlimit := (horder.append (alike_decimal (min (filter.limit.getD 100) 500))).append
    (alike_fixed denotes (s := " OFFSET ") (by decide +kernel))
  exact (hlimit.append (alike_decimal (filter.offset.getD 0))).append
    (alike_fixed denotes (by decide +kernel))

end

/-- Whatever a quoted text is, it is read back as a literal, and a query has the tokens that it
would have with empty texts in the filter. -/
theorem sql_literals_closed (denotes : Char → List Char) (hbackslash : denotes '\\' = ['\\'])
    (hquote : denotes '\'' = ['\'']) :
    (∀ v rest : List Char, rest.head? ≠ some '\'' →
      (clickHouse denotes).readLiteral (quote v ++ rest) = some (v, rest)) ∧
    ∀ (database : List Char) (filter : TrafficFilter) (favorites : List (List Char))
      (activeIgnores : List (List Char × ℤ)) (text : List Char),
      queryFlows database filter favorites activeIgnores = some text →
        ∃ blank tokens, queryFlows database filter.blank favorites activeIgnores = some blank ∧
          (clickHouse denotes).outline text = some tokens ∧
          (clickHouse denotes).outline blank = some tokens := by
  have hplain := clickHouse_plain hbackslash hquote
  refine ⟨fun v rest hrest ↦ ?_, fun database filter favorites activeIgnores text htext ↦ ?_⟩
  · rw [quote_eq denotes]
    exact Quoting.readLiteral_quoted hplain v hrest
  · obtain ⟨blank, hblank, halike⟩ := alike_queryFlows hplain htext
    obtain ⟨tokens, htokens, htokens'⟩ := halike.outline
    exact ⟨blank, tokens, hblank, htokens, htokens'⟩

/-- A service that tries to leave its literal. -/
def hostileService : List Char := "\\' OR 1 = 1 -- \\".toList

theorem sql_literals_closed_hostileService :
    (clickHouse fun c ↦ [c]).readLiteral (quote hostileService ++ " AND ".toList) =
        some (hostileService, " AND ".toList) ∧
      ∃ text blank tokens,
        queryFlows "bazalt".toList { service := some hostileService } [] [] = some text ∧
        queryFlows "bazalt".toList { service := some [] } [] [] = some blank ∧
        (clickHouse fun c ↦ [c]).outline text = some tokens ∧
        (clickHouse fun c ↦ [c]).outline blank = some tokens := by
  obtain ⟨hread, hquery⟩ := sql_literals_closed (fun c ↦ [c]) rfl rfl
  obtain ⟨blank, tokens, hblank, htokens⟩ :=
    hquery "bazalt".toList { service := some hostileService } [] [] _ rfl
  exact ⟨hread _ _ (by decide +kernel), _, blank, tokens, rfl, hblank, htokens⟩

end Bazalt.Storage
