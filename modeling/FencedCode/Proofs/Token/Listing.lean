import FencedCode.CommandLine.Basic
import FencedCode.Proofs.Decimal.Layout
import FencedCode.Proofs.Text.Quoted
import FencedCode.Proofs.Token.Literals

/-!
# Token listings are read back

The columns of a listing are filled with blanks, and a place or the name of a kind can be wider than
its column. Still each line says where its token stands, of which kind it is and what it was read
from: a place ends at the first blank, the name of a kind holds no double quote, and the lexeme is
quoted. The literal at the end of the line is not quoted if it is a string, but no literal that is
scanned holds a line feed.

* `Token.Summary`, `Token.Summary.ofLine` -- what a line says of its token, and how it is read;
* `Token.ofLine_listing` -- a line is read whatever the literal at its end;
* `Scan.lineFeed_not_mem_listing` -- each token of a text is listed on one line;
* `CommandLine.tokenView_reads` -- **a listing has one line for each token and is read back**, also
  where the text holds pieces that are no token.
-/

namespace FencedCode

/-! ## 1. What a line says -/

namespace Token

/-- What a listing says of a token in any case. -/
structure Summary where
  line : Nat
  column : Nat
  kind : Kind
  lexeme : Text
  deriving DecidableEq

/-- Place, kind and lexeme of a token. -/
def summary (t : Token) : Summary :=
  ⟨t.pos.line, t.pos.column, t.kind, t.lexeme⟩

end Token

/-- The kind whose name fills the column of kinds in this way. -/
def Kind.ofColumn (t : Text) : Kind :=
  (numbered.find? fun k => Token.column 18 k.label ++ [32] == t).getD unknown

namespace Token

/-- Reads a line: the place goes to the first blank, the name of the kind to the first double
    quote. -/
def Summary.ofLine (l : Text) : Option Summary :=
  let line := l.takeWhile (· != 58)
  let behind := (l.dropWhile (· != 58)).tail
  let column := behind.takeWhile (· != 32)
  let entry := (behind.dropWhile (· != 32)).dropWhile (· == 32)
  let name := entry.takeWhile (· != 34)
  (Text.unquote (entry.dropWhile (· != 34))).map fun read =>
    ⟨Text.decimal line, Text.decimal column, Kind.ofColumn name, read.1⟩

/-- Reads a listing, each line of which is ended by a line feed. -/
def Summary.ofLines (t : Text) : Option (List Summary) :=
  (t.splitOn 10).dropLast.mapM Summary.ofLine

end Token

/-! ## 2. Reading a line -/

namespace Kind

/-- **The kinds have different names**, also with the blanks that fill the column. -/
theorem ofColumn_column (k : Kind) : ofColumn (Token.column 18 k.label ++ [32]) = k := by
  cases k with
  | type t => cases t <;> decide
  | _ => decide

/-- No name of a kind starts with a blank, and none holds a double quote or a line feed. -/
theorem column_spec (k : Kind) : (Token.column 18 k.label).head?.any (· != 32) = true ∧
    34 ∉ Token.column 18 k.label ∧ 10 ∉ Token.column 18 k.label := by
  cases k with
  | type t => cases t <;> decide
  | _ => decide

end Kind

namespace Token

/-- Blanks behind a place and the blank between two columns are all blanks. -/
theorem blanks_swap (n : Nat) (t : Text) :
    List.replicate n 32 ++ 32 :: t = 32 :: (List.replicate n 32 ++ t) := by
  rw [← List.singleton_append, ← List.append_assoc, ← List.replicate_succ', List.replicate_succ,
    List.cons_append]

/-- The line of a token, with the blanks in front of the name of its kind. -/
theorem listing_eq (t : Token) : ∃ blanks : Nat, t.listing =
    Text.ofNat t.pos.line ++ 58 :: (Text.ofNat t.pos.column ++ 32 :: (List.replicate blanks 32 ++
      ((column 18 t.kind.label ++ [32]) ++
        (Text.quoted t.lexeme ++ literalColumn t.literal)))) := by
  refine ⟨7 - t.pos.label.length, ?_⟩
  unfold listing
  rw [column, Text.padding, Position.label]
  simp only [List.append_assoc, List.cons_append, List.nil_append]
  rw [blanks_swap]

/-- **A line says what token it stands for**, whatever the literal at its end. -/
theorem ofLine_listing (t : Token) : Summary.ofLine t.listing = some t.summary := by
  obtain ⟨blanks, hlisting⟩ := listing_eq t
  have hline := Text.split_at
    (Text.bne_of_not_mem ((Text.isDigits_ofNat t.pos.line).not_mem (by decide)))
    (bne_self_eq_false (58 : UInt8))
  have hcolumn := Text.split_at
    (Text.bne_of_not_mem ((Text.isDigits_ofNat t.pos.column).not_mem (by decide)))
    (bne_self_eq_false (32 : UInt8))
  obtain ⟨hhead, hquote, -⟩ := t.kind.column_spec
  have hname : 34 ∉ column 18 t.kind.label ++ [32] := by
    simp only [List.mem_append, List.mem_singleton, not_or]
    exact ⟨hquote, by decide⟩
  have hblanks (x : Text) :
      (32 :: (List.replicate blanks 32 ++ ((column 18 t.kind.label ++ [32]) ++ x))).dropWhile
        (· == 32) = (column 18 t.kind.label ++ [32]) ++ x := by
    rw [← List.cons_append, ← List.replicate_succ, List.dropWhile_append_of_pos fun b hb =>
      beq_iff_eq.mpr (List.eq_of_mem_replicate hb)]
    cases hcolumn : column 18 t.kind.label with
    | nil =>
      rw [hcolumn] at hhead
      cases hhead
    | cons b bs =>
      rw [hcolumn] at hhead
      exact List.dropWhile_cons_of_neg fun hb => bne_iff_ne.mp hhead (beq_iff_eq.mp hb)
  have hentry := Text.split_at (Text.bne_of_not_mem hname) (bne_self_eq_false (34 : UInt8))
  unfold Summary.ofLine
  rw [hlisting]
  dsimp only
  rw [(hline _).1, (hline _).2, List.tail_cons, (hcolumn _).1, (hcolumn _).2, hblanks]
  have hquoted : Text.quoted t.lexeme ++ literalColumn t.literal =
    34 :: (Text.quoted t.lexeme ++ literalColumn t.literal).tail := rfl
  rw [hquoted, (hentry _).1, (hentry _).2, ← hquoted, Text.unquote_quoted, Kind.ofColumn_column,
    Text.decimal_ofNat, Text.decimal_ofNat]
  rfl

end Token

/-! ## 3. One line for each token -/

namespace Decimal

/-- A float in a listing stands on one line. -/
theorem lineFeed_not_mem_listing (x : Float) : 10 ∉ listing x := by
  have hsign (negative : Bool) : 10 ∉ sign negative := by
    cases negative <;> decide
  have hdigits (n : Nat) : 10 ∉ Text.ofNat n :=
    (Text.isDigits_ofNat n).not_mem (by decide)
  have hpositional (d : Decimal) : 10 ∉ d.positional := by
    obtain ⟨whole, fraction, hlayout, hwhole, hfraction, -⟩ := d.positional_eq
    rw [hlayout]
    exact Text.not_mem_pointed hwhole.digits hfraction (by decide) (by decide)
  have hsignificand (d : Decimal) : 10 ∉ d.significand [] := by
    rw [significand_bare]
    exact Text.not_mem_pointed (List.forall_mem_singleton.mpr d.lead_mem) d.rest_mem (by decide)
      (by decide)
  unfold listing
  split
  · decide
  split
  · split <;> decide
  dsimp only
  split
  · simp only [List.mem_append, not_or]
    exact ⟨hsign _, hpositional _⟩
  · simp only [List.mem_append, List.mem_cons, not_or]
    refine ⟨⟨hsign _, hsignificand _⟩, by decide, ?_, ?_⟩
    · split <;> decide
    · split
      · simp only [List.mem_cons, not_or]
        exact ⟨by decide, hdigits _⟩
      · exact hdigits _

end Decimal

theorem Text.lineFeed_not_mem_ofInt (n : Int) : 10 ∉ Text.ofInt n := by
  have hdigits (n : Nat) : 10 ∉ Text.ofNat n :=
    (Text.isDigits_ofNat n).not_mem (by decide)
  cases n with
  | ofNat n => exact hdigits n
  | negSucc n =>
    simp only [Text.ofInt, List.mem_cons, not_or]
    exact ⟨by decide, hdigits _⟩

/-- A literal is listed on one line, unless it is a string of several lines. -/
theorem Token.lineFeed_not_mem_literalColumn {l : Option Literal}
    (hstring : ∀ v, l = some (.string v) → 10 ∉ v) : 10 ∉ literalColumn l := by
  have hcolumn {t : Text} (ht : 10 ∉ t) : 10 ∉ 32 :: t := by
    simp only [List.mem_cons, not_or]
    exact ⟨by decide, ht⟩
  cases l with
  | none => exact List.not_mem_nil
  | some l =>
    cases l with
    | string v => exact hcolumn (hstring v rfl)
    | char code => exact hcolumn (Text.lineFeed_not_mem_quotedChar _)
    | int n => exact hcolumn (Text.lineFeed_not_mem_ofInt _)
    | float x => exact hcolumn (Decimal.lineFeed_not_mem_listing x)
    | bool b => cases b <;> exact hcolumn (by decide)

/-- The content is no string that holds a line feed. -/
def Content.OneLine (c : Content) : Prop :=
  ∀ k v, c = .token k (some (.string v)) → 10 ∉ v

namespace Segment

theorem oneLine_ite {q : Prop} [Decidable q] {x y : Content} (hx : x.OneLine) (hy : y.OneLine) :
    (if q then x else y).OneLine := by
  split
  · exact hx
  · exact hy

/-- What is taken from a text as a string holds no line feed. -/
theorem lineFeed_not_mem_respell {rs : List Symbol} (hrs : .scalar '\n' ∉ rs) :
    10 ∉ Symbol.respell rs := by
  intro h
  obtain ⟨r, hr, hbyte⟩ := List.mem_flatMap.mp h
  have hchar : r.char = '\n' := by
    by_contra hne
    exact Symbol.lineFeed_not_mem_utf8EncodeChar hne hbyte
  cases r with
  | scalar c =>
    obtain rfl : c = '\n' := hchar
    exact hrs hr
  | stray b => exact absurd (show Symbol.replacement = '\n' from hchar) (by decide)

theorem oneLine_number (r : Symbol) (rs : List Symbol) : (number r rs).content.OneLine := by
  have hint (digits : Text) : (intContent digits).OneLine :=
    oneLine_ite nofun nofun
  have hfloat (whole fraction : Text) : (floatContent whole fraction).OneLine :=
    oneLine_ite nofun nofun
  exact oneLine_ite nofun (oneLine_ite (hint _) (hfloat _ _))

theorem oneLine_character (r closing : Symbol) (failure : LexicalError) (rs : List Symbol) :
    (character r closing failure rs).content.OneLine := by
  unfold character
  split
  · split <;> exact nofun
  · exact nofun

/-- A string ends at the latest where its line does. -/
theorem oneLine_string (r : Symbol) (rs : List Symbol) : (string r rs).content.OneLine := by
  have hinner :
      .scalar '\n' ∉ rs.takeWhile fun c => !c.isLineFeed && c != .scalar '"' := by
    intro h
    exact absurd (List.mem_takeWhile_imp h) (by decide)
  have hcontent {value : Text} (hvalue : 10 ∉ value) : (stringContent value).OneLine := by
    refine oneLine_ite nofun (oneLine_ite nofun ?_)
    rintro k v ⟨⟩
    exact hvalue
  unfold string
  dsimp only
  split
  · split
    · exact hcontent (lineFeed_not_mem_respell hinner)
    · exact nofun
  · exact nofun

theorem oneLine_mark (c : Char) (rs : List Symbol) : (mark c rs).content.OneLine := by
  unfold mark
  split
  · rintro k v ⟨⟩
  · split
    · rintro k v ⟨⟩
    · rintro k v ⟨⟩

/-- **No string that is cut from a text holds a line feed.** -/
theorem oneLine_cut (r : Symbol) (rs : List Symbol) : (cut r rs).content.OneLine := by
  unfold cut
  split
  · exact nofun
  split
  · rintro k v ⟨⟩
  split
  · exact oneLine_number r rs
  split
  · exact nofun
  · exact nofun
  · exact oneLine_character _ _ _ rs
  · exact oneLine_character _ _ _ rs
  · exact oneLine_string _ rs
  · exact oneLine_mark _ rs
  · exact nofun

end Segment

namespace Scan

/-- **Each token of a text is listed on one line.** -/
theorem lineFeed_not_mem_listing {t : Text} {u : Token} (hu : u ∈ (ofText t).tokens) :
    10 ∉ u.listing := by
  have hstring : ∀ v, u.literal = some (.string v) → 10 ∉ v := by
    intro v hv
    obtain ⟨ts, last, htokens, -⟩ := tokens_eq t
    rw [htokens] at hu
    rcases List.mem_append.mp hu with hu | hu
    · have hmem : u ∈ (ofText t).tokens.dropLast := by rwa [htokens, List.dropLast_concat]
      obtain ⟨r, rs, -, hcut⟩ := lexeme_of_mem hmem
      have honeLine := Segment.oneLine_cut r rs
      rw [hcut, hv] at honeLine
      exact honeLine _ v rfl
    · rw [List.mem_singleton.mp hu] at hv
      cases hv
  obtain ⟨blanks, hlisting⟩ := u.listing_eq
  have hnumeral (n : Nat) : 10 ∉ Text.ofNat n :=
    (Text.isDigits_ofNat n).not_mem (by decide)
  have hblanks : (10 : UInt8) ∉ List.replicate blanks 32 :=
    fun h => absurd (List.eq_of_mem_replicate h) (by decide)
  rw [hlisting]
  simp only [List.mem_append, List.mem_cons, List.not_mem_nil, or_false, not_or]
  exact ⟨hnumeral _, by decide, hnumeral _, by decide, hblanks,
    ⟨u.kind.column_spec.2.2, by decide⟩, Text.lineFeed_not_mem_quoted _,
    Token.lineFeed_not_mem_literalColumn hstring⟩

end Scan

/-! ## 4. Reading listings -/

namespace Token

/-- A listing falls into the lines of its tokens, and nothing stands behind the last one. -/
theorem splitOn_listings : ∀ ts : List Token, (∀ t ∈ ts, 10 ∉ t.listing) →
    (listings ts).splitOn 10 = ts.map listing ++ [[]]
  | [], _ => rfl
  | t :: ts, h => by
    have hsplit : listings (t :: ts) = t.listing ++ 10 :: listings ts := by
      rw [listings, List.flatMap_cons, Text.line, List.append_assoc]
      rfl
    have hfeed : ∀ b ∈ t.listing, (b == 10) = false := fun b hb =>
      beq_false_of_ne fun heq => h t List.mem_cons_self (heq ▸ hb)
    rw [hsplit, List.splitOn, List.splitOnP_append_cons_of_forall_mem hfeed _ (beq_self_eq_true _)]
    have hrest := splitOn_listings ts fun u hu => h u (List.mem_cons_of_mem _ hu)
    rw [List.splitOn] at hrest
    rw [hrest]
    rfl

theorem mapM_ofLine : ∀ ts : List Token,
    (ts.map listing).mapM Summary.ofLine = some (ts.map summary)
  | [] => rfl
  | t :: ts => by
    rw [List.map_cons, List.mapM_cons, ofLine_listing, mapM_ofLine ts]
    rfl

/-- **Tokens are read from their listing**, if each is listed on one line. -/
theorem ofLines_listings {ts : List Token} (h : ∀ t ∈ ts, 10 ∉ t.listing) :
    Summary.ofLines (listings ts) = some (ts.map summary) := by
  rw [Summary.ofLines, splitOn_listings ts h, List.dropLast_concat, mapM_ofLine]

end Token

namespace CommandLine

/-- **The token view of a text is faithful and unambiguous.** It consists of one line for each token
    in order, the one at the end of the text included, each ended by a line feed, whatever the
    complaints about the text; places, kinds and lexemes of all tokens are read from it again; and
    so two texts that are viewed alike have the same tokens in the same places. -/
theorem tokenView_reads (source : Text) :
    (tokenView source).1.splitOn 10 = (Scan.ofText source).tokens.map Token.listing ++ [[]] ∧
    (∃ ts last, (Scan.ofText source).tokens = ts ++ [.endAt last]) ∧
    Token.Summary.ofLines (tokenView source).1 =
      some ((Scan.ofText source).tokens.map Token.summary) ∧
    ∀ other, (tokenView source).1 = (tokenView other).1 →
      (Scan.ofText source).tokens.map Token.summary =
        (Scan.ofText other).tokens.map Token.summary := by
  have hread (t : Text) : Token.Summary.ofLines (tokenView t).1 =
      some ((Scan.ofText t).tokens.map Token.summary) :=
    Token.ofLines_listings fun _ => Scan.lineFeed_not_mem_listing
  refine ⟨Token.splitOn_listings _ fun _ => Scan.lineFeed_not_mem_listing, ?_, hread source, ?_⟩
  · obtain ⟨ts, last, htokens, -⟩ := Scan.tokens_eq source
    exact ⟨ts, last, htokens⟩
  · intro other hviews
    have hsummaries := hread other
    rw [← hviews, hread source] at hsummaries
    exact Option.some.inj hsummaries

/-- A blank or a tab behind a mark makes no difference to the view. -/
theorem tokenView_reads_gap :
    (tokenView (utf8 "+ ")).1 = (tokenView (utf8 "+\t")).1 ∧
    (Scan.ofText (utf8 "+ ")).tokens.map Token.summary =
      (Scan.ofText (utf8 "+\t")).tokens.map Token.summary := by
  have hviews : (tokenView (utf8 "+ ")).1 = (tokenView (utf8 "+\t")).1 := by decide +kernel
  exact ⟨hviews, (tokenView_reads _).2.2.2 _ hviews⟩

end CommandLine

end FencedCode
