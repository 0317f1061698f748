import DeflateRecoder.Main
import DeflateRecoder.Proofs.Batch.Pool
import DeflateRecoder.Proofs.Bits.Inverse
import DeflateRecoder.Proofs.Bits.WordReader
import DeflateRecoder.Proofs.Block.Accounting
import DeflateRecoder.Proofs.Block.HeaderRewriting
import DeflateRecoder.Proofs.Block.LeastCost
import DeflateRecoder.Proofs.Block.LeastSpelling
import DeflateRecoder.Proofs.Code.Codec
import DeflateRecoder.Proofs.Inflate.Agreement
import DeflateRecoder.Proofs.Optimise.Events
import DeflateRecoder.Proofs.Optimise.Idempotence
import DeflateRecoder.Proofs.Search.Exhaustive
import DeflateRecoder.Proofs.Search.LengthSymbols
import DeflateRecoder.Proofs.Stream.Alignment
import DeflateRecoder.Proofs.Stream.Links
import DeflateRecoder.Proofs.Stream.Truncation
import DeflateRecoder.Session
