import ContentCoding.Connection.Run
import ContentCoding.Proofs.CodedBodies
import ContentCoding.Proofs.CodedHeads
import ContentCoding.Proofs.Emissions
import ContentCoding.Proofs.EmptyPieces
import ContentCoding.Proofs.Fidelity
import ContentCoding.Proofs.Lifetimes
import ContentCoding.Proofs.Pairing
import ContentCoding.Scripted
import ContentCoding.Selector
import ContentCoding.Stored.Decoder
import ContentCoding.Stored.Encoder
import ContentCoding.Proofs.Aftermath
import ContentCoding.Body.Polling
import ContentCoding.Proofs.BodyOutput
import ContentCoding.Proofs.BodyLives
import ContentCoding.Proofs.Agreement
import ContentCoding.Proofs.BodyFailures
import ContentCoding.Proofs.Waiting
import ContentCoding.Proofs.EmptyFrames
import ContentCoding.Proofs.Timing
import ContentCoding.Proofs.Passing
import ContentCoding.Proofs.Ending
import ContentCoding.Proofs.Permission
import ContentCoding.Proofs.Progress
import ContentCoding.Proofs.Flushing
import ContentCoding.Proofs.Arrival
import ContentCoding.Proofs.Choice
import ContentCoding.Proofs.EntryOrder
import ContentCoding.Proofs.FieldLines
import ContentCoding.Proofs.Serving
import ContentCoding.Proofs.Suitability
import ContentCoding.Proofs.Announcement
import ContentCoding.Proofs.WriteFailures
import ContentCoding.Compressor.Session
import ContentCoding.Proofs.AnyOrder
import ContentCoding.Compressor.Boxed
import ContentCoding.Proofs.CallProtocol
import ContentCoding.Proofs.LetterCase
import ContentCoding.Proofs.MediaTypes
import ContentCoding.Proofs.Consultation
import ContentCoding.Proofs.Consistency
