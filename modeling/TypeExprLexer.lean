import TypeExprLexer.Kind
import TypeExprLexer.Vocabulary
import TypeExprLexer.Classification
import TypeExprLexer.Token
import TypeExprLexer.Utf8
import TypeExprLexer.ByteClass
import TypeExprLexer.Cursor
import TypeExprLexer.Pattern
import TypeExprLexer.Lexeme
import TypeExprLexer.Tokenization
import TypeExprLexer.TokenSource
import TypeExprLexer.TokenStream
import TypeExprLexer.Navigation
import TypeExprLexer.Report
import TypeExprLexer.NameGrammar
import TypeExprLexer.Boundary
import TypeExprLexer.Matching
import TypeExprLexer.CharacterScan
import TypeExprLexer.Proofs.Moves
import TypeExprLexer.Proofs.Lookahead
import TypeExprLexer.Proofs.Blanks
import TypeExprLexer.Proofs.Partition
import TypeExprLexer.Proofs.CharacterReader
import TypeExprLexer.Proofs.Glue
import TypeExprLexer.Proofs.Seam
import TypeExprLexer.Proofs.Factorization
import TypeExprLexer.Proofs.Respacing
import TypeExprLexer.Proofs.Coherence
import TypeExprLexer.Proofs.Surroundings
import TypeExprLexer.Proofs.Noninterference
import TypeExprLexer.Proofs.Extension
import TypeExprLexer.Proofs.Resumption
import TypeExprLexer.Proofs.Form
import TypeExprLexer.Proofs.Reporting
import TypeExprLexer.Proofs.Interleaving
import TypeExprLexer.Proofs.LetterCase
import TypeExprLexer.Proofs.Punctuation
import TypeExprLexer.Proofs.LongestName
import TypeExprLexer.Proofs.LexemeGrammar
import TypeExprLexer.Proofs.Repositioning
import TypeExprLexer.Proofs.Peeking
import TypeExprLexer.Proofs.Skipping
import TypeExprLexer.Proofs.Walk
import TypeExprLexer.Proofs.Shape
import TypeExprLexer.Proofs.Segments
import TypeExprLexer.Proofs.MatchBounds
import TypeExprLexer.Proofs.Additions
import TypeExprLexer.Proofs.Description
import TypeExprLexer.Proofs.CharacterWalk
