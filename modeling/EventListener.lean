import EventListener.Metadata.Hash
import EventListener.Metadata.Registry
import EventListener.Metadata.TypeHash
import EventListener.Metadata.Occurrences
import EventListener.Metadata.Walk
import EventListener.Metadata.Termination
import EventListener.Metadata.Visited
import EventListener.Metadata.Renaming
import EventListener.Metadata.Structural
import EventListener.Metadata.Frame
import EventListener.Metadata.MetadataType
import EventListener.Metadata.EventTable
import EventListener.Metadata.StorageHash
import EventListener.Client
